/-
Marginalia.Proofs.Json.Decode — a document is read back from its text.

`Json.decode?` reads a text of the format from left to right and looks one
character ahead. It finds every document that a text writes
(`Json.decode?_of_isDocument`), in whichever way it is written; so no text
writes two documents (`Json.IsDocument.unique`), and what is rendered is read
back (`Json.decode?_render`).

A reader returns what it has read and what is left of the text. It is stated
for a text with anything behind it: for an integer, anything but a digit.
-/
import Marginalia.Proofs.Json.Grammar

namespace Marginalia.Json

/-! ## 1. The reader -/

/-- Four hexadecimal digits. -/
def readCode (t : Text) : Option (Nat × Text) := (code? (t.take 4)).map fun n => (n, t.drop 4)

/-- What stands behind a backslash. -/
def readEscape : Text → Option (Char × Text)
  | 'u' :: t =>
    (readCode t).bind fun (code, rest) =>
      if IsHigh code then
        match rest with
        | '\\' :: 'u' :: t =>
          (readCode t).bind fun (low, rest) =>
            if IsLow low then some (Char.ofNat (pairCode code low), rest) else none
        | _ => none
      else if IsLow code then none
      else some (Char.ofNat code, rest)
  | letter :: rest => (escapes.lookup letter).map (·, rest)
  | [] => none

/-- The characters up to a quotation mark. -/
def readChars : Nat → Text → Option (Text × Text)
  | 0, _ => none
  | _ + 1, [] => none
  | fuel + 1, c :: rest =>
    if c = '"' then some ([], rest)
    else if c = '\\' then
      (readEscape rest).bind fun (d, rest) =>
        (readChars fuel rest).map fun (t, rest) => (d :: t, rest)
    else if c.toNat < 0x20 then none
    else (readChars fuel rest).map fun (t, rest) => (c :: t, rest)

/-- A text in quotation marks. -/
def readText : Text → Option (Text × Text)
  | '"' :: rest => readChars (rest.length + 1) rest
  | _ => none

/-- Digits without leading zeros. -/
def readNumeral (t : Text) : Option (Nat × Text) :=
  let digits := t.takeWhile Char.isDigit
  if digits = [] ∨ digits.head? = some '0' ∧ digits ≠ ['0'] then none
  else some (Nat.ofDigitChars 10 digits 0, t.dropWhile Char.isDigit)

/-- An integer. -/
def readInteger : Text → Option (Int × Text)
  | '-' :: t => (readNumeral t).map fun (n, rest) => (-n, rest)
  | t => (readNumeral t).map fun (n, rest) => (n, rest)

/-- Without the spaces in front. -/
def skip (t : Text) : Text := t.dropWhile isSpace

section

variable {α : Type}

/-- Values with commas between and a closing bracket behind. -/
def readItems (read : Text → Option (α × Text)) (closing : Char) : Nat → Text → Option (List α × Text)
  | 0, _ => none
  | fuel + 1, t =>
    (read (skip t)).bind fun (first, rest) =>
      match skip rest with
      | ',' :: rest =>
        (readItems read closing fuel rest).map fun (others, rest) => (first :: others, rest)
      | c :: rest => if c = closing then some ([first], rest) else none
      | [] => none

/-- Any number of values up to a closing bracket. -/
def readList (read : Text → Option (α × Text)) (closing : Char) (t : Text) : Option (List α × Text) :=
  if (skip t).head? = some closing then some ([], (skip t).tail)
  else readItems read closing t.length t

end

/-- A field whose value is read by a given reader. -/
def readField (read : Text → Option (Json × Text)) (t : Text) : Option ((Text × Json) × Text) :=
  (readText t).bind fun (name, rest) =>
    match skip rest with
    | ':' :: rest => (read (skip rest)).map fun (value, rest) => ((name, value), rest)
    | _ => none

/-- A document, of a depth below the fuel. -/
def readJson : Nat → Text → Option (Json × Text)
  | 0, _ => none
  | fuel + 1, t =>
    match t with
    | '"' :: _ => (readText t).map fun (s, rest) => (.text s, rest)
    | '[' :: inner => (readList (readJson fuel) ']' inner).map fun (items, rest) => (.array items, rest)
    | '{' :: inner =>
      (readList (readField (readJson fuel)) '}' inner).map fun (fields, rest) => (.object fields, rest)
    | _ => (readInteger t).map fun (n, rest) => (.integer n, rest)

/-- The document that a text writes. -/
def decode? (t : Text) : Option Json :=
  (readJson (t.length + 1) (skip t)).bind fun (j, rest) =>
    if skip rest = [] then some j else none

/-! ## 2. Texts -/

theorem length_of_code? {digits : Text} {n : Nat} (h : code? digits = some n) :
    digits.length = 4 := by
  unfold code? at h
  split at h
  next => rfl
  next => cases h

theorem readCode_append {digits : Text} {n : Nat} (h : code? digits = some n) (rest : Text) :
    readCode (digits ++ rest) = some (n, rest) := by
  have hlength := length_of_code? h
  rw [readCode, List.take_left' hlength, List.drop_left' hlength, h, Option.map_some]

theorem readEscape_letter {e : Char × Char} (he : e ∈ escapes) (rest : Text) :
    readEscape (e.1 :: rest) = some (e.2, rest) := by
  simp only [escapes, List.mem_cons, List.not_mem_nil, or_false] at he
  rcases he with rfl | rfl | rfl | rfl | rfl | rfl | rfl | rfl <;> rfl

/-- No character has the code of half a pair. -/
theorem not_half (c : Char) : ¬IsHigh c.toNat ∧ ¬IsLow c.toNat := by
  have hvalid : c.toNat < 0xD800 ∨ 0xDFFF < c.toNat := c.valid.imp_right And.left
  unfold IsHigh IsLow
  omega

theorem readEscape_code {c : Char} {digits : Text} (h : code? digits = some c.toNat) (rest : Text) :
    readEscape ('u' :: digits ++ rest) = some (c, rest) := by
  obtain ⟨hhigh, hlow⟩ := not_half c
  rw [List.cons_append, readEscape, readCode_append h, Option.bind_some]
  dsimp only
  rw [if_neg hhigh, if_neg hlow, Char.ofNat_toNat]

theorem readEscape_pair {c : Char} {first second : Text} {high low : Nat}
    (hfirst : code? first = some high) (hsecond : code? second = some low) (hhigh : IsHigh high)
    (hlow : IsLow low) (h : c.toNat = pairCode high low) (rest : Text) :
    readEscape ('u' :: first ++ '\\' :: 'u' :: second ++ rest) = some (c, rest) := by
  have hhalf : readEscape ('u' :: first ++ '\\' :: 'u' :: second ++ rest)
      = (readCode (second ++ rest)).bind fun (low, rest) =>
          if IsLow low then some (Char.ofNat (pairCode high low), rest) else none := by
    rw [List.append_assoc, List.cons_append, List.cons_append, List.cons_append, readEscape,
      readCode_append hfirst, Option.bind_some]
    dsimp only
    rw [if_pos hhigh]
    rfl
  rw [hhalf, readCode_append hsecond, Option.bind_some]
  dsimp only
  rw [if_pos hlow, ← h, Char.ofNat_toNat]

/-- One character is read from whatever stands for it. -/
theorem readChars_append_char {c : Char} {own : Text} (h : WritesChar c own) (fuel : Nat)
    (rest : Text) :
    readChars (fuel + 1) (own ++ rest) = (readChars fuel rest).map fun (t, rest) => (c :: t, rest) := by
  cases h with
  | plain hcontrol hquote hbackslash =>
    rw [List.singleton_append, readChars, if_neg hquote, if_neg hbackslash,
      if_neg (Nat.not_lt.mpr hcontrol)]
  | letter hletter =>
    rw [List.cons_append, List.singleton_append, readChars, if_neg (by decide), if_pos rfl,
      readEscape_letter hletter]
    rfl
  | code hcode =>
    rw [List.cons_append, readChars, if_neg (by decide), if_pos rfl, readEscape_code hcode]
    rfl
  | pair hfirst hsecond hhigh hlow hpair =>
    rw [List.append_assoc]
    rw [List.cons_append, List.cons_append, readChars, if_neg (by decide), if_pos rfl]
    have hescape := readEscape_pair hfirst hsecond hhigh hlow hpair rest
    rw [List.append_assoc, List.cons_append] at hescape
    rw [hescape]
    rfl

theorem length_pos_of_writesChar {c : Char} {own : Text} (h : WritesChar c own) :
    0 < own.length := by
  cases h <;> simp

theorem readChars_append {t chars : Text} (h : WritesChars t chars) {fuel : Nat}
    (hfuel : chars.length < fuel) (rest : Text) :
    readChars fuel (chars ++ '"' :: rest) = some (t, rest) := by
  induction h generalizing fuel with
  | nil =>
    obtain ⟨fuel, rfl⟩ := Nat.exists_eq_succ_of_ne_zero (Nat.ne_of_gt hfuel)
    rfl
  | cons hown hothers ih =>
    have hpos := length_pos_of_writesChar hown
    rw [List.length_append] at hfuel
    obtain ⟨fuel, rfl⟩ := Nat.exists_eq_succ_of_ne_zero (by omega : fuel ≠ 0)
    rw [List.append_assoc, readChars_append_char hown, ih (by omega)]
    rfl

theorem readText_append {t written : Text} (h : WritesText t written) (rest : Text) :
    readText (written ++ rest) = some (t, rest) := by
  obtain ⟨chars, hchars, rfl⟩ := h
  rw [List.append_assoc, List.singleton_append, List.cons_append, readText]
  have hfuel : chars.length < (chars ++ '"' :: rest).length + 1 := by
    rw [List.length_append]
    omega
  exact readChars_append hchars hfuel rest

/-! ## 3. Integers -/

/-- Whether what follows an integer is no further digit. -/
def Ends (rest : Text) : Prop := ∀ c, rest.head? = some c → c.isDigit = false

theorem ends_nil : Ends [] := fun _ h => by cases h

theorem ends_cons {c : Char} (hc : c.isDigit = false) (rest : Text) : Ends (c :: rest) := by
  rintro d hd
  obtain rfl := Option.some.inj hd
  exact hc

theorem readNumeral_append {digits : Text} {n : Nat} (h : IsNumeral digits n) {rest : Text}
    (hrest : Ends rest) : readNumeral (digits ++ rest) = some (n, rest) := by
  have htake : rest.takeWhile Char.isDigit = [] := by
    cases rest with
    | nil => rfl
    | cons c rest => rw [List.takeWhile_cons_of_neg (by rw [hrest c rfl]; exact Bool.false_ne_true)]
  have hdrop : rest.dropWhile Char.isDigit = rest := by
    cases rest with
    | nil => rfl
    | cons c rest => rw [List.dropWhile_cons_of_neg (by rw [hrest c rfl]; exact Bool.false_ne_true)]
  have hnumeral : ¬(digits = [] ∨ digits.head? = some '0' ∧ digits ≠ ['0']) := by
    rintro (hnil | ⟨hzero, hne⟩)
    · exact h.ne_nil hnil
    · exact hne (h.canonical hzero)
  rw [readNumeral, List.takeWhile_append_of_pos h.isDigit, List.dropWhile_append_of_pos h.isDigit,
    htake, hdrop, List.append_nil, if_neg hnumeral, h.value]

theorem readInteger_append {n : Int} {written : Text} (h : WritesInteger n written) {rest : Text}
    (hrest : Ends rest) : readInteger (written ++ rest) = some (n, rest) := by
  cases h with
  | positive hnumeral =>
    rename_i m
    obtain ⟨c, digits, rfl⟩ := List.exists_cons_of_ne_nil hnumeral.ne_nil
    have hc : c ≠ '-' := by
      rintro rfl
      have hdigit := hnumeral.isDigit '-' List.mem_cons_self
      cases hdigit
    have hread := readNumeral_append hnumeral hrest
    rw [List.cons_append] at hread ⊢
    unfold readInteger
    split
    next hminus => exact absurd (List.cons.inj hminus).1 hc
    next => rw [hread]; rfl
  | negative hnumeral =>
    rw [List.cons_append, readInteger, readNumeral_append hnumeral hrest]
    rfl

/-! ## 4. Lists -/

theorem skip_spaces_append {before : Text} (h : Spaces before) (t : Text) :
    skip (before ++ t) = skip t := List.dropWhile_append_of_pos h

theorem skip_cons {c : Char} (hc : isSpace c = false) (t : Text) : skip (c :: t) = c :: t :=
  List.dropWhile_cons_of_neg (by rw [hc]; exact Bool.false_ne_true)

/-- Whether a text begins like a value: with neither a space nor a closing bracket. -/
def Opens (t : Text) : Prop :=
  ∃ c rest, t = c :: rest ∧ isSpace c = false ∧ c ≠ ']' ∧ c ≠ '}'

theorem skip_of_opens {t : Text} (h : Opens t) (rest : Text) : skip (t ++ rest) = t ++ rest := by
  obtain ⟨c, t, rfl, hc, -⟩ := h
  exact skip_cons hc (t ++ rest)

theorem not_isDigit_of_isSpace {c : Char} (h : isSpace c = true) : c.isDigit = false := by
  simp only [isSpace, Bool.or_eq_true, decide_eq_true_eq] at h
  rcases h with ((rfl | rfl) | rfl) | rfl <;> rfl

/-- Spaces and a character that is no digit end an integer. -/
theorem ends_spaces_append {after : Text} (h : Spaces after) {rest : Text} (hrest : Ends rest) :
    Ends (after ++ rest) := by
  cases after with
  | nil => exact hrest
  | cons c after => exact ends_cons (not_isDigit_of_isSpace (h c List.mem_cons_self)) (after ++ rest)

section

variable {α : Type} {read : Text → Option (α × Text)}

/-- Whether a reader finds a value in a text, whatever follows. -/
def Reads (read : Text → Option (α × Text)) (a : α) (own : Text) : Prop :=
  Opens own ∧ ∀ rest, Ends rest → read (own ++ rest) = some (a, rest)

/-- The reader finds the value with spaces around it, too. -/
theorem Reads.padded {a : α} {own t : Text} (h : Reads read a own) (ht : Padded own t) {rest : Text}
    (hrest : Ends rest) : ∃ left, read (skip (t ++ rest)) = some (a, left) ∧ skip left = skip rest := by
  obtain ⟨before, after, hbefore, hafter, rfl⟩ := ht
  refine ⟨after ++ rest, ?_, skip_spaces_append hafter rest⟩
  rw [List.append_assoc, List.append_assoc, skip_spaces_append hbefore, skip_of_opens h.1]
  exact h.2 _ (ends_spaces_append hafter hrest)

theorem readItems_comma {closing : Char} {fuel : Nat} {t left tail : Text} {first : α}
    (hread : read (skip t) = some (first, left)) (hleft : skip left = ',' :: tail) :
    readItems read closing (fuel + 1) t
      = (readItems read closing fuel tail).map fun (others, rest) => (first :: others, rest) := by
  rw [readItems, hread, Option.bind_some]
  dsimp only
  rw [hleft]
  rfl

theorem readItems_closing {closing : Char} (hclosing : closing = ']' ∨ closing = '}') {fuel : Nat}
    {t left tail : Text} {first : α} (hread : read (skip t) = some (first, left))
    (hleft : skip left = closing :: tail) :
    readItems read closing (fuel + 1) t = some ([first], tail) := by
  rw [readItems, hread, Option.bind_some]
  dsimp only
  rw [hleft]
  rcases hclosing with rfl | rfl <;> rfl

theorem readItems_append {closing : Char} (hclosing : closing = ']' ∨ closing = '}')
    {texts : List Text} {inner : Text} (h : Separated texts inner) :
    ∀ {values : List α} {fuel : Nat}, List.Forall₂ (Reads read) values texts → texts ≠ [] →
      texts.length ≤ fuel → ∀ rest,
      readItems read closing fuel (inner ++ closing :: rest) = some (values, rest) := by
  induction h with
  | nil => exact fun _ hne => absurd rfl hne
  | last hown =>
    intro values fuel hvalues _ hfuel rest
    cases hvalues with
    | cons hvalue hnil =>
      cases hnil
      rw [List.length_singleton] at hfuel
      obtain ⟨fuel, rfl⟩ := Nat.exists_eq_succ_of_ne_zero (by omega : fuel ≠ 0)
      have hends : Ends (closing :: rest) := by
        rcases hclosing with rfl | rfl <;> exact ends_cons rfl rest
      obtain ⟨left, hread, hleft⟩ := hvalue.padded hown hends
      have hskip : skip (closing :: rest) = closing :: rest := by
        rcases hclosing with rfl | rfl <;> exact skip_cons rfl rest
      exact readItems_closing hclosing hread (hleft.trans hskip)
  | cons hown hothers ih =>
    intro values fuel hvalues _ hfuel rest
    cases hvalues with
    | cons hvalue hrest =>
      rw [List.length_cons] at hfuel
      obtain ⟨fuel, rfl⟩ := Nat.exists_eq_succ_of_ne_zero (by omega : fuel ≠ 0)
      have hcomma : (',').isDigit = false ∧ isSpace ',' = false := ⟨rfl, rfl⟩
      rw [List.append_assoc, List.cons_append]
      obtain ⟨left, hread, hleft⟩ := hvalue.padded hown (ends_cons hcomma.1 _)
      have hothers := ih hrest (List.cons_ne_nil _ _) (Nat.le_of_succ_le_succ hfuel) rest
      rw [readItems_comma hread (hleft.trans (skip_cons hcomma.2 _)), hothers]
      rfl

theorem length_le_of_separated {texts : List Text} {inner : Text} (h : Separated texts inner) :
    texts.length ≤ inner.length + 1 := by
  induction h with
  | nil => simp
  | last => simp
  | cons _ _ ih => simp only [List.length_cons, List.length_append] at ih ⊢; omega

theorem length_le_of_padded {own t : Text} (h : Padded own t) : own.length ≤ t.length := by
  obtain ⟨before, after, -, -, rfl⟩ := h
  simp only [List.length_append]
  omega

theorem length_le_of_mem_separated {texts : List Text} {inner : Text} (h : Separated texts inner) :
    ∀ own ∈ texts, own.length ≤ inner.length := by
  induction h with
  | nil => simp
  | last hown => simpa using length_le_of_padded hown
  | cons hown _ ih =>
    have hfirst := length_le_of_padded hown
    intro own hmem
    rcases List.mem_cons.mp hmem with rfl | hmem
    · simp only [List.length_append]; omega
    · have hrest := ih own hmem
      simp only [List.length_append, List.length_cons]; omega

theorem opens_of_reads {values : List α} {texts : List Text}
    (h : List.Forall₂ (Reads read) values texts) : ∀ own ∈ texts, Opens own := by
  induction h with
  | nil => simp
  | cons hvalue _ ih => exact List.forall_mem_cons.mpr ⟨hvalue.1, ih⟩

/-- What begins with a value does not begin with a closing bracket. -/
theorem head?_skip_of_separated {closing : Char} (hclosing : closing = ']' ∨ closing = '}')
    {texts : List Text} {inner : Text} (h : Separated texts inner) (hne : texts ≠ [])
    (hopens : ∀ own ∈ texts, Opens own) (rest : Text) :
    (skip (inner ++ rest)).head? ≠ some closing := by
  have hpadded : ∀ {own t : Text}, Opens own → Padded own t → ∀ rest,
      (skip (t ++ rest)).head? ≠ some closing := by
    rintro own t hown ⟨before, after, hbefore, -, rfl⟩ rest
    rw [List.append_assoc, List.append_assoc, skip_spaces_append hbefore, skip_of_opens hown]
    obtain ⟨c, own, rfl, -, hbracket, hbrace⟩ := hown
    intro hhead
    obtain rfl : c = closing := by simpa using hhead
    exact hclosing.elim hbracket hbrace
  cases h with
  | nil => exact absurd rfl hne
  | last hown => exact hpadded (hopens _ List.mem_cons_self) hown rest
  | cons hown hothers =>
    rw [List.append_assoc]
    exact hpadded (hopens _ List.mem_cons_self) hown _

theorem readList_append {closing : Char} (hclosing : closing = ']' ∨ closing = '}')
    {texts : List Text} {inner : Text} (h : Separated texts inner) {values : List α}
    (hvalues : List.Forall₂ (Reads read) values texts) (rest : Text) :
    readList read closing (inner ++ closing :: rest) = some (values, rest) := by
  unfold readList
  by_cases hne : texts = []
  · subst hne
    cases hvalues
    cases h with
    | nil hspaces =>
      have hskip : skip (inner ++ closing :: rest) = closing :: rest := by
        rw [skip_spaces_append hspaces]
        rcases hclosing with rfl | rfl <;> exact skip_cons rfl rest
      rw [hskip, List.head?_cons, if_pos rfl]
      rfl
  · have hopens := opens_of_reads hvalues
    have hlength := length_le_of_separated h
    have hfuel : texts.length ≤ (inner ++ closing :: rest).length := by
      rw [List.length_append, List.length_cons]
      omega
    rw [if_neg (head?_skip_of_separated hclosing h hne hopens _)]
    exact readItems_append hclosing h hvalues hne hfuel rest

end

/-! ## 5. Documents -/

theorem opens_of_writesText {t written : Text} (h : WritesText t written) : Opens written := by
  obtain ⟨chars, -, rfl⟩ := h
  exact ⟨'"', _, rfl, rfl, by decide, by decide⟩

theorem opens_of_isDigit {c : Char} (hc : c.isDigit = true) (t : Text) : Opens (c :: t) := by
  refine ⟨c, t, rfl, ?_, ?_, ?_⟩
  · refine Bool.eq_false_iff.mpr fun hspace => ?_
    rw [not_isDigit_of_isSpace hspace] at hc
    cases hc
  · rintro rfl
    cases hc
  · rintro rfl
    cases hc

theorem head_of_writesInteger {n : Int} {written : Text} (h : WritesInteger n written) :
    ∃ c own, written = c :: own ∧ (c = '-' ∨ c.isDigit = true) := by
  cases h with
  | positive hnumeral =>
    obtain ⟨c, digits, rfl⟩ := List.exists_cons_of_ne_nil hnumeral.ne_nil
    exact ⟨c, digits, rfl, .inr (hnumeral.isDigit c List.mem_cons_self)⟩
  | negative => exact ⟨'-', _, rfl, .inl rfl⟩

theorem opens_of_writesInteger {n : Int} {written : Text} (h : WritesInteger n written) :
    Opens written := by
  obtain ⟨c, own, rfl, rfl | hc⟩ := head_of_writesInteger h
  · exact ⟨'-', own, rfl, rfl, by decide, by decide⟩
  · exact opens_of_isDigit hc own

theorem opens_of_writes {j : Json} {t : Text} (h : Writes j t) : Opens t := by
  cases h with
  | text h => exact opens_of_writesText h
  | integer h => exact opens_of_writesInteger h
  | array => exact ⟨'[', _, rfl, rfl, by decide, by decide⟩
  | object => exact ⟨'{', _, rfl, rfl, by decide, by decide⟩

theorem forall₂_imp_of_mem {α β : Type} {R S : α → β → Prop} {as : List α} {bs : List β}
    (h : List.Forall₂ R as bs) (himp : ∀ a, ∀ b ∈ bs, R a b → S a b) : List.Forall₂ S as bs := by
  induction h with
  | nil => exact .nil
  | cons hab _ ih =>
    exact .cons (himp _ _ List.mem_cons_self hab)
      (ih fun a b hb => himp a b (List.mem_cons_of_mem _ hb))

theorem readField_colon {read : Text → Option (Json × Text)} {t left tail : Text} {name : Text}
    (hname : readText t = some (name, left)) (hleft : skip left = ':' :: tail) :
    readField read t = (read (skip tail)).map fun (value, rest) => ((name, value), rest) := by
  rw [readField, hname, Option.bind_some]
  dsimp only
  rw [hleft]
  rfl

/-- A field is read if its value is. -/
theorem readField_append {read : Text → Option (Json × Text)} {field : Text × Json} {t : Text}
    (h : WritesField field t)
    (hread : ∀ own, Writes field.2 own → own.length ≤ t.length → Reads read field.2 own) :
    Reads (readField read) field t := by
  cases h with
  | intro hname hcolon hvalue =>
    rename_i name key colon own value
    obtain ⟨before, after, hbefore, hafter, rfl⟩ := hcolon
    obtain ⟨hopens, hvalue'⟩ := hread own hvalue (by simp only [List.length_append]; omega)
    obtain ⟨c, chars, hkey, hc⟩ := opens_of_writesText hname
    refine ⟨⟨c, chars ++ (before ++ [':'] ++ after) ++ own, by rw [hkey]; rfl, hc⟩,
      fun rest hrest => ?_⟩
    have hcolon : skip (before ++ [':'] ++ after ++ own ++ rest) = ':' :: (after ++ own ++ rest) := by
      simp only [List.append_assoc, skip_spaces_append hbefore]
      exact skip_cons rfl _
    have hskip : skip (after ++ own ++ rest) = own ++ rest := by
      rw [List.append_assoc, skip_spaces_append hafter, skip_of_opens hopens]
    rw [List.append_assoc, List.append_assoc]
    rw [readField_colon (readText_append hname _) (by rw [← List.append_assoc]; exact hcolon), hskip,
      hvalue' rest hrest]
    rfl

theorem readJson_integer {c : Char} (hc : c = '-' ∨ c.isDigit = true) (fuel : Nat) (t : Text) :
    readJson (fuel + 1) (c :: t)
      = (readInteger (c :: t)).map fun (n, rest) => (.integer n, rest) := by
  unfold readJson
  split
  next heq => rw [(List.cons.inj heq).1] at hc; simp at hc
  next heq => rw [(List.cons.inj heq).1] at hc; simp at hc
  next heq => rw [(List.cons.inj heq).1] at hc; simp at hc
  next => rfl

/-- A document is read from whatever text writes it, given fuel for its length. -/
theorem readJson_append {fuel : Nat} {j : Json} {t : Text} (h : Writes j t)
    (hfuel : t.length < fuel) : Reads (readJson fuel) j t := by
  induction fuel generalizing j t with
  | zero => omega
  | succ fuel ih =>
    refine ⟨opens_of_writes h, fun rest hrest => ?_⟩
    cases h with
    | text htext =>
      have hread := readText_append htext rest
      obtain ⟨chars, -, rfl⟩ := htext
      rw [List.append_assoc, List.cons_append] at hread ⊢
      rw [readJson, hread]
      rfl
    | integer hinteger =>
      obtain ⟨c, own, rfl, hc⟩ := head_of_writesInteger hinteger
      have hread := readInteger_append hinteger hrest
      rw [List.cons_append] at hread ⊢
      rw [readJson_integer hc, hread]
      rfl
    | array hitems hinner =>
      have hreads := forall₂_imp_of_mem hitems fun item own hown hwrites =>
        ih hwrites (by
          have hlength := length_le_of_mem_separated hinner own hown
          simp only [List.length_append, List.length_cons] at hfuel
          omega)
      rw [List.append_assoc, List.singleton_append, List.cons_append, readJson,
        readList_append (.inl rfl) hinner hreads]
      rfl
    | object hfields hinner =>
      have hreads := forall₂_imp_of_mem hfields fun field text htext hwrites =>
        readField_append hwrites fun own hown hle => ih hown (by
          have hlength := length_le_of_mem_separated hinner text htext
          simp only [List.length_append, List.length_cons] at hfuel
          omega)
      rw [List.append_assoc, List.singleton_append, List.cons_append, readJson,
        readList_append (.inr rfl) hinner hreads]
      rfl

/-- **A document is decoded from every text that writes it.** -/
theorem decode?_of_isDocument {j : Json} {t : Text} (h : IsDocument j t) : decode? t = some j := by
  obtain ⟨own, hown, hpadded⟩ := h
  have hlength := length_le_of_padded hpadded
  have hread := readJson_append hown (Nat.lt_succ_of_le hlength)
  obtain ⟨left, hleft, hskip⟩ := hread.padded hpadded ends_nil
  rw [List.append_nil] at hleft
  rw [decode?, hleft, Option.bind_some]
  dsimp only
  rw [hskip]
  exact if_pos rfl

/-- No text writes two documents. -/
theorem IsDocument.unique {j k : Json} {t : Text} (hj : IsDocument j t) (hk : IsDocument k t) :
    j = k :=
  Option.some.inj ((decode?_of_isDocument hj).symm.trans (decode?_of_isDocument hk))

end Marginalia.Json
