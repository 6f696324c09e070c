/-
Marginalia.Proofs.Comment.Excerpt — what a label shows of its comment.

A label is an excerpt of its comment (`within_excerpt`): it fits into its limit,
is trimmed, and has characters of the comment in their order. Joining lines puts
a space where a line feed was, so a line feed counts as a space here
(`DrawnFrom`).

Order alone would allow a label that says nothing. The stages of a label take
away blank characters and those of which markers are made, and no others, so the
rest of the comment, its `wording`, is in the label from its start on, and all
of it unless the label is cut. What a label takes away may belong to the text
and not to a marker; that is why the wording leaves these characters out.

A comment with a blank body is labelled as empty, with one exception
(`ofText_enclose_iff`): in a block with no body at all, the opener takes the
star of the closer, and a slash is left.
-/
import Marginalia.Proofs.Comment.Label

namespace Marginalia

/-! ## 1. Trimmed texts -/

namespace Text

/-- Whether a text, if it has characters, neither begins nor ends with a blank one. -/
structure Trimmed (t : Text) : Prop where
  first : ∀ c, t.head? = some c → isBlank c = false
  last : ∀ c, t.getLast? = some c → isBlank c = false

theorem head?_dropWhile_eq_some {p : Char → Bool} {t : Text} {c : Char}
    (h : (t.dropWhile p).head? = some c) : p c = false := by
  have hnot := List.head?_dropWhile_not p t
  rw [h] at hnot
  exact hnot

theorem trimmed_trim (t : Text) : t.trim.Trimmed where
  first _ h := head?_dropWhile_eq_some (head?_dropEndWhile h)
  last c h := by
    rw [trim, trimEnd, dropEndWhile, List.getLast?_reverse] at h
    exact head?_dropWhile_eq_some h

/-! ## 2. Characters in order -/

/-- A text with a space for each of its line feeds. -/
def spaced (t : Text) : Text := t.map fun c => if c = '\n' then ' ' else c

/-- Whether a text has characters of another in their order; a line feed counts as a space. -/
def DrawnFrom (s t : Text) : Prop := s.spaced.Sublist t.spaced

instance (s t : Text) : Decidable (DrawnFrom s t) :=
  inferInstanceAs (Decidable (s.spaced.Sublist t.spaced))

theorem DrawnFrom.of_sublist {s t : Text} (h : s.Sublist t) : DrawnFrom s t := h.map _

theorem DrawnFrom.trans {r s t : Text} (h : DrawnFrom r s) (h' : DrawnFrom s t) : DrawnFrom r t :=
  List.Sublist.trans h h'

theorem spaced_append (s t : Text) : (s ++ t).spaced = s.spaced ++ t.spaced := List.map_append

/-- Lines joined by spaces or by line feeds look the same. -/
theorem spaced_join_space : ∀ lines : List Text,
    (join [' '] lines).spaced = (join ['\n'] lines).spaced
  | [] => rfl
  | [line] => rfl
  | line :: next :: rest => by
      have ih := spaced_join_space (next :: rest)
      have hseparator : spaced [' '] = spaced ['\n'] := rfl
      rw [join, join, List.intercalate_cons_cons, List.intercalate_cons_cons, ← join, ← join]
      simp only [spaced_append, ih, hseparator]

/-- Leaving out characters of the parts leaves out characters of the whole. -/
theorem join_map_sublist (separator : Text) {f : Text → Text} (h : ∀ part, (f part).Sublist part) :
    ∀ parts : List Text, (join separator (parts.map f)).Sublist (join separator parts)
  | [] => List.Sublist.refl _
  | [part] => by
      rw [List.map_singleton, join, join, List.intercalate_singleton, List.intercalate_singleton]
      exact h part
  | part :: next :: rest => by
      have ih := join_map_sublist separator h (next :: rest)
      rw [List.map_cons, List.map_cons, join, join, List.intercalate_cons_cons,
        List.intercalate_cons_cons]
      exact ((h part).append (List.Sublist.refl separator)).append ih

theorem join_splitLines (t : Text) : join ['\n'] (splitLines t) = t := List.intercalate_splitOn '\n'

end Text

/-! ## 3. Markers and wording -/

namespace Kind

/-- What ends a comment of a style; a comment of a line ends with its line. -/
def ending : Kind → Text
  | .line | .hash => []
  | .block => blockDelimiters.closer
  | .html => htmlDelimiters.closer

/-- A comment of a style around a body. -/
def enclose (kind : Kind) (body : Text) : Text := kind.marker ++ (body ++ kind.ending)

end Kind

namespace Text

/-- The characters of which the markers of comments are made. -/
def markerCharacters : Text := Kind.all.flatMap fun kind => kind.marker ++ kind.ending

/-- Whether a character is neither blank nor one of which markers are made. -/
def isWording (c : Char) : Bool := !isBlank c && !markerCharacters.contains c

/-- The wording of a text: what is neither blank nor made for a marker. -/
def wording (t : Text) : Text := t.filter isWording

theorem isWording_of_isBlank {c : Char} (h : isBlank c = true) : isWording c = false := by
  simp [isWording, h]

theorem isWording_of_mem {c : Char} (h : c ∈ markerCharacters) : isWording c = false := by
  simp [isWording, h]

theorem wording_append (s t : Text) : (s ++ t).wording = s.wording ++ t.wording :=
  List.filter_append s t

theorem wording_reverse (t : Text) : wording t.reverse = t.wording.reverse := List.filter_reverse

theorem wording_cons_of_mem {c : Char} (h : c ∈ markerCharacters) (t : Text) :
    wording (c :: t) = wording t :=
  List.filter_cons_of_neg (by simp [isWording_of_mem h])

theorem wording_marker_append (kind : Kind) (t : Text) :
    wording (kind.marker ++ t) = wording t := by
  have hmarker : wording kind.marker = [] := by cases kind <;> decide
  rw [wording_append, hmarker, List.nil_append]

theorem wording_append_ending (kind : Kind) (t : Text) :
    wording (t ++ kind.ending) = wording t := by
  have hending : wording kind.ending = [] := by cases kind <;> decide
  rw [wording_append, hending, List.append_nil]

theorem wording_dropWhile {p : Char → Bool} (h : ∀ c, p c = true → isWording c = false) (t : Text) :
    wording (t.dropWhile p) = t.wording := by
  have hnone : wording (t.takeWhile p) = [] := by
    refine List.filter_eq_nil_iff.mpr fun c hc => ?_
    simp [h c (List.mem_takeWhile_imp hc)]
  calc wording (t.dropWhile p)
      = wording (t.takeWhile p) ++ wording (t.dropWhile p) := by rw [hnone, List.nil_append]
    _ = t.wording := by rw [← wording_append, List.takeWhile_append_dropWhile]

theorem wording_dropBlanks (t : Text) : wording (t.dropWhile isBlank) = t.wording :=
  wording_dropWhile (fun _ => isWording_of_isBlank) t

theorem wording_dropStars (t : Text) : wording (t.dropWhile (· = '*')) = t.wording := by
  refine wording_dropWhile (fun c hc => isWording_of_mem ?_) t
  rw [of_decide_eq_true hc]
  decide

theorem wording_trim (t : Text) : t.trim.wording = t.wording := by
  rw [trim, trimEnd, dropEndWhile, wording_reverse, wording_dropBlanks, wording_reverse,
    List.reverse_reverse, trimStart, wording_dropBlanks]

/-- Between lines that are joined there is no wording. -/
theorem wording_join {separator : Text} (h : separator.wording = []) : ∀ parts : List Text,
    wording (join separator parts) = parts.flatMap wording
  | [] => rfl
  | [part] => by
      rw [join, List.intercalate_singleton, List.flatMap_singleton]
  | part :: next :: rest => by
      rw [join, List.intercalate_cons_cons, ← join, wording_append, wording_append, h,
        List.append_nil, wording_join h (next :: rest)]
      exact List.flatMap_cons.symm

end Text

/-! ## 4. The stages of a label -/

namespace Label

open Text (DrawnFrom Trimmed wording)

theorem wording_dropLineMarker (t : Text) : wording (dropLineMarker t) = wording t := by
  unfold dropLineMarker
  split
  next rest =>
    rw [Text.wording_dropBlanks]
    exact (Text.wording_marker_append .line rest).symm
  next => rfl

theorem wording_dropBlockOpener (t : Text) : wording (dropBlockOpener t) = wording t := by
  unfold dropBlockOpener
  split
  next rest =>
    rw [Text.wording_dropBlanks, Text.wording_dropStars]
    exact (Text.wording_marker_append .block rest).symm
  next => rfl

theorem wording_dropBlockCloser (t : Text) : wording (dropBlockCloser t) = wording t := by
  unfold dropBlockCloser
  split
  next rest hback =>
    have ht : t = rest.reverse ++ Kind.block.ending := by
      simpa [Kind.ending, blockDelimiters] using congrArg List.reverse hback
    rw [ht, Text.wording_append_ending, Text.wording_reverse, Text.wording_reverse,
      Text.wording_dropBlanks, Text.wording_dropStars]
  next => rfl

theorem wording_dropHtmlOpener (t : Text) : wording (dropHtmlOpener t) = wording t := by
  unfold dropHtmlOpener
  split
  next rest =>
    rw [Text.wording_dropBlanks]
    exact (Text.wording_marker_append .html rest).symm
  next => rfl

theorem wording_dropHtmlCloser (t : Text) : wording (dropHtmlCloser t) = wording t := by
  unfold dropHtmlCloser
  split
  next rest hback =>
    have ht : t = rest.reverse ++ Kind.html.ending := by
      simpa [Kind.ending, htmlDelimiters] using congrArg List.reverse hback
    rw [ht, Text.wording_append_ending, Text.wording_reverse, Text.wording_reverse,
      Text.wording_dropBlanks]
  next => rfl

theorem wording_dropHashMarker (t : Text) : wording (dropHashMarker t) = wording t := by
  unfold dropHashMarker
  split
  next rest =>
    rw [Text.wording_dropBlanks]
    exact (Text.wording_marker_append .hash rest).symm
  next => rfl

/-- Taking the markers off leaves the wording. -/
theorem wording_strip (t : Text) : wording (strip t) = wording t := by
  rw [strip, Text.wording_trim, wording_dropHashMarker, wording_dropHtmlCloser,
    wording_dropHtmlOpener, wording_dropBlockCloser, wording_dropBlockOpener,
    wording_dropLineMarker]

theorem wording_dropStar (line : Text) : wording (dropStar line) = wording line := by
  have hstart : wording line.trimStart = wording line := Text.wording_dropBlanks line
  unfold dropStar
  split
  next c rest hline =>
    rw [← hstart, hline, Text.wording_cons_of_mem (by decide)]
    split
    next hc => exact (List.filter_cons_of_neg (by simp [Text.isWording_of_isBlank hc])).symm
    next => rfl
  next hline =>
    rw [← hstart, hline]
    rfl
  next => rfl

theorem wording_joinLines (t : Text) : wording (joinLines t) = wording t := by
  have hline : ∀ line, wording (dropStar line).trim = wording line := fun line => by
    rw [Text.wording_trim, wording_dropStar]
  have hfeed : wording ['\n'] = [] := rfl
  calc wording (joinLines t)
      = (splitLines t).flatMap fun line => wording (dropStar line).trim := by
        rw [joinLines, Text.wording_trim, Text.wording_join rfl, List.flatMap_map]
    _ = wording (Text.join ['\n'] (splitLines t)) := by
        simp only [hline, Text.wording_join hfeed]
    _ = wording t := by rw [Text.join_splitLines]

theorem joinLines_drawnFrom (t : Text) : DrawnFrom (joinLines t) t := by
  have hline : ∀ line : Text, (dropStar line).trim.Sublist line :=
    fun line => (Text.trim_sublist _).trans (dropStar_sublist line)
  have hparts : DrawnFrom (joinLines t) (Text.join [' '] (splitLines t)) :=
    .of_sublist ((Text.trim_sublist _).trans (Text.join_map_sublist [' '] hline (splitLines t)))
  rwa [DrawnFrom, Text.spaced_join_space, Text.join_splitLines] at hparts

/-! ## 5. Labels -/

theorem trimmed_full (t : Text) : (full t).Trimmed := by
  unfold full
  split
  · exact Text.trimmed_trim _
  · exact Text.trimmed_trim _

theorem full_drawnFrom (t : Text) : DrawnFrom (full t) t := by
  have hstrip : DrawnFrom (strip t) t := .of_sublist (strip_sublist t)
  unfold full
  split
  · exact (joinLines_drawnFrom (strip t)).trans hstrip
  · exact hstrip

theorem wording_full (t : Text) : wording (full t) = wording t := by
  unfold full
  split
  · rw [wording_joinLines, wording_strip]
  · exact wording_strip t

/-- What is too long is cut so that the dots find room behind it. -/
theorem fit_of_lt {limit : Int} {t : Text} (hlimit : 3 ≤ limit) (h : limit < t.length) :
    fit limit t = t.take (limit - 3).toNat ++ ellipsis ∧
      ((t.take (limit - 3).toNat).length : Int) = limit - 3 := by
  have hlong : (t.length : Int) > limit := h
  have hroom : ¬ limit - 3 < 0 := by omega
  refine ⟨?_, ?_⟩
  · rw [fit, if_pos hlong, Text.cutEnd, if_neg hroom]
  · rw [List.length_take]
    omega

theorem fit_of_le {limit : Int} {t : Text} (hne : t ≠ []) (h : (t.length : Int) ≤ limit) :
    fit limit t = t := by
  have hshort : ¬ (t.length : Int) > limit := by omega
  rw [fit, if_neg hshort, if_neg (by simpa using hne)]

theorem fit_nil {limit : Int} (h : 0 ≤ limit) : fit limit [] = empty := by
  have hshort : ¬ (([] : Text).length : Int) > limit := by simpa using h
  rw [fit, if_neg hshort]
  rfl

theorem trimmed_empty : Trimmed empty where
  first c hc := by
    obtain rfl : 'E' = c := Option.some.inj hc
    decide
  last c hc := by
    obtain rfl : 't' = c := Option.some.inj hc
    decide

/-- A cut label is trimmed: it begins as the text does, and ends in a dot. -/
theorem trimmed_cut {t : Text} (h : t.Trimmed) {n : Nat} (hn : n ≠ 0) :
    Trimmed (t.take n ++ ellipsis) where
  first c hc := by
    rw [List.head?_append, List.head?_take, if_neg hn] at hc
    cases ht : t.head? with
    | none =>
      rw [ht] at hc
      obtain rfl : '.' = c := Option.some.inj hc
      decide
    | some d =>
      rw [ht] at hc
      obtain rfl : d = c := Option.some.inj hc
      exact h.first d ht
  last c hc := by
    rw [List.getLast?_append] at hc
    obtain rfl : '.' = c := Option.some.inj hc
    decide

/-- **A label is an excerpt of its comment.** A label of at most `limit` characters, where there is
room for the label of an empty comment, is not empty, fits, and is trimmed. It says that the comment
is empty, and then the comment has no wording; or it is drawn from the comment and has all of its
wording; or it is as long as the limit allows, ends in dots, and what stands before them is drawn
from the comment and has its wording from the start. -/
theorem within_excerpt {limit : Int} (hlimit : 13 ≤ limit) (t : Text) :
    within limit t ≠ [] ∧ ((within limit t).length : Int) ≤ limit ∧ (within limit t).Trimmed ∧
      ((within limit t = empty ∧ wording t = []) ∨
        (DrawnFrom (within limit t) t ∧ wording (within limit t) = wording t) ∨
        (((within limit t).length : Int) = limit ∧
          ∃ front, within limit t = front ++ ellipsis ∧ (front.length : Int) = limit - 3 ∧
            DrawnFrom front t ∧ wording front <+: wording t)) := by
  have htrimmed := trimmed_full t
  have hdrawn := full_drawnFrom t
  have hwording := wording_full t
  rw [within]
  by_cases hnone : full t = []
  · have hempty : fit limit (full t) = empty := by rw [hnone, fit_nil (by omega)]
    have hlength : (empty.length : Int) = 13 := rfl
    rw [hnone] at hwording
    rw [hempty]
    exact ⟨by decide, by omega, trimmed_empty, .inl ⟨rfl, hwording.symm⟩⟩
  · by_cases hlong : limit < (full t).length
    · obtain ⟨hcut, hroom⟩ := fit_of_lt (by omega) hlong
      have hellipsis : (ellipsis.length : Int) = 3 := rfl
      have hlength : ((fit limit (full t)).length : Int) = limit := by
        rw [hcut, List.length_append]
        omega
      refine ⟨?_, by omega, ?_, .inr (.inr ⟨hlength, _, hcut, hroom, ?_, ?_⟩)⟩
      · rw [hcut]
        exact List.append_ne_nil_of_right_ne_nil _ (by decide)
      · rw [hcut]
        exact trimmed_cut htrimmed (by omega)
      · exact (DrawnFrom.of_sublist (List.take_sublist _ _)).trans hdrawn
      · rw [← hwording]
        exact (List.take_prefix _ _).filter _
    · have hfit : fit limit (full t) = full t := fit_of_le hnone (by omega)
      rw [hfit]
      exact ⟨hnone, by omega, htrimmed, .inr (.inl ⟨hdrawn, hwording⟩)⟩

/-- A block of four lines, one of them without wording. -/
def lorem : Text := "/**\n * Lorem ipsum\n *\n * dolor */".toList

theorem within_excerpt_lorem :
    (13 : Int) ≤ 13 ∧ within 13 lorem = "Lorem ipsu...".toList ∧
      ∃ front, within 13 lorem = front ++ ellipsis ∧ (front.length : Int) = 13 - 3 ∧
        DrawnFrom front lorem ∧ wording front <+: wording lorem := by
  have hlimit : (13 : Int) ≤ 13 := le_refl 13
  have hlabel : within 13 lorem = "Lorem ipsu...".toList := by decide +kernel
  obtain ⟨-, -, -, ⟨hempty, -⟩ | ⟨hdrawn, -⟩ | ⟨-, hcut⟩⟩ := within_excerpt hlimit lorem
  · rw [hlabel] at hempty
    exact absurd hempty (by decide)
  · -- the comment has no dots
    rw [hlabel] at hdrawn
    exact absurd hdrawn (by decide +kernel)
  · exact ⟨hlimit, hlabel, hcut⟩

end Label

/-! ## 6. Comments with a blank body -/

theorem Text.dropBlanks_append {body : Text} (h : body.isBlankText = true) (t : Text) :
    (body ++ t).dropWhile isBlank = t.dropWhile isBlank :=
  List.dropWhile_append_of_pos (List.all_eq_true.mp h)

theorem Text.not_mem_of_isBlankText {body : Text} (h : body.isBlankText = true) {c : Char}
    (hc : isBlank c = false) : c ∉ body := by
  intro hmem
  rw [List.all_eq_true.mp h c hmem] at hc
  cases hc

namespace Label

theorem dropBlockCloser_of_not_mem {t : Text} (h : '/' ∉ t) : dropBlockCloser t = t := by
  unfold dropBlockCloser
  split
  next hback => exact absurd (List.mem_reverse.mp (hback ▸ List.mem_cons_self)) h
  next => rfl

theorem dropHtmlCloser_of_not_mem {t : Text} (h : '>' ∉ t) : dropHtmlCloser t = t := by
  unfold dropHtmlCloser
  split
  next hback => exact absurd (List.mem_reverse.mp (hback ▸ List.mem_cons_self)) h
  next => rfl

section

variable {body : Text}

theorem strip_enclose_line (h : body.isBlankText = true) : strip (Kind.line.enclose body) = [] := by
  have hmarker : dropLineMarker (Kind.line.enclose body) = [] := Text.dropBlanks_append h []
  rw [strip, hmarker]
  rfl

theorem strip_enclose_hash (h : body.isBlankText = true) : strip (Kind.hash.enclose body) = [] := by
  have hslash : '/' ∉ '#' :: (body ++ []) := by
    simpa using Text.not_mem_of_isBlankText h (show isBlank '/' = false by decide)
  have hclosing : '>' ∉ '#' :: (body ++ []) := by
    simpa using Text.not_mem_of_isBlankText h (show isBlank '>' = false by decide)
  have hline : dropLineMarker (Kind.hash.enclose body) = '#' :: (body ++ []) := rfl
  have hblock : dropBlockOpener ('#' :: (body ++ [])) = '#' :: (body ++ []) := rfl
  have hhtml : dropHtmlOpener ('#' :: (body ++ [])) = '#' :: (body ++ []) := rfl
  have hmarker : dropHashMarker ('#' :: (body ++ [])) = [] := Text.dropBlanks_append h []
  rw [strip, hline, hblock, dropBlockCloser_of_not_mem hslash, hhtml,
    dropHtmlCloser_of_not_mem hclosing, hmarker]
  rfl

theorem strip_enclose_html (h : body.isBlankText = true) : strip (Kind.html.enclose body) = [] := by
  have hslash : '/' ∉ Kind.html.enclose body := by
    have hbody := Text.not_mem_of_isBlankText h (show isBlank '/' = false by decide)
    simp [Kind.enclose, Kind.marker, Kind.ending, htmlDelimiters, hbody]
  have hline : dropLineMarker (Kind.html.enclose body) = Kind.html.enclose body := rfl
  have hblock : dropBlockOpener (Kind.html.enclose body) = Kind.html.enclose body := rfl
  have hmarker : dropHtmlOpener (Kind.html.enclose body) = htmlDelimiters.closer :=
    Text.dropBlanks_append h htmlDelimiters.closer
  rw [strip, hline, hblock, dropBlockCloser_of_not_mem hslash, hmarker]
  rfl

/-- A blank character keeps the opener of a block from the star of its closer. -/
theorem strip_enclose_block (h : body.isBlankText = true) (hne : body ≠ []) :
    strip (Kind.block.enclose body) = [] := by
  have hline : dropLineMarker (Kind.block.enclose body) = Kind.block.enclose body := rfl
  have hstars : (body ++ Kind.block.ending).dropWhile (· = '*') = body ++ Kind.block.ending := by
    obtain ⟨c, rest, rfl⟩ := List.exists_cons_of_ne_nil hne
    have hstar := Text.not_mem_of_isBlankText h (show isBlank '*' = false by decide)
    have hc : c ≠ '*' := fun hc => hstar (hc ▸ List.mem_cons_self)
    exact List.dropWhile_cons_of_neg (by simpa using hc)
  have hmarker : dropBlockOpener (Kind.block.enclose body) = Kind.block.ending := by
    show ((body ++ Kind.block.ending).dropWhile (· = '*')).dropWhile isBlank = _
    rw [hstars]
    exact Text.dropBlanks_append h Kind.block.ending
  rw [strip, hline, hmarker]
  rfl

end

theorem strip_enclose {kind : Kind} {body : Text} (h : body.isBlankText = true)
    (hne : kind = .block → body ≠ []) : strip (kind.enclose body) = [] := by
  cases kind with
  | line => exact strip_enclose_line h
  | hash => exact strip_enclose_hash h
  | block => exact strip_enclose_block h (hne rfl)
  | html => exact strip_enclose_html h

theorem ofText_of_strip_eq_nil {t : Text} (h : strip t = []) : ofText t = empty := by
  have hfull : full t = [] := by
    rw [full, h]
    split
    · rfl
    · rfl
  rw [ofText, within, hfull]
  exact fit_nil (by decide)

/-- **Blank comments are labelled as empty,** unless the comment is a block without any body. -/
theorem ofText_enclose_iff (kind : Kind) {body : Text} (h : body.isBlankText = true) :
    ofText (kind.enclose body) = empty ↔ ¬ (kind = .block ∧ body = []) := by
  constructor
  · rintro hempty ⟨rfl, rfl⟩
    revert hempty
    decide
  · exact fun hbody => ofText_of_strip_eq_nil
      (strip_enclose h fun hkind hnil => hbody ⟨hkind, hnil⟩)

/-- Blank characters of three sorts, one of them a line feed. -/
def blanks : Text := [' ', '\n', '\u00a0']

theorem ofText_enclose_blanks :
    blanks.isBlankText = true ∧ Text.isBlankText [] = true ∧
      (∀ kind : Kind, ofText (kind.enclose blanks) = empty) ∧
      ∀ kind : Kind, kind ≠ .block → ofText (kind.enclose []) = empty := by
  have hblanks : blanks.isBlankText = true := by decide
  refine ⟨hblanks, rfl, fun kind => ?_, fun kind hkind => ?_⟩
  · exact (ofText_enclose_iff kind hblanks).mpr fun hbody => absurd hbody.2 (by decide)
  · exact (ofText_enclose_iff kind rfl).mpr fun hbody => hkind hbody.1

/-- The opener takes the star that the closer needs, so its slash is all that is left. -/
theorem ofText_emptyBlock :
    Text.isBlankText [] = true ∧ Kind.block.enclose [] = "/**/".toList ∧
      (matchesIn "/**/".toList).map (·.text) = ["/**/".toList] ∧
      ofText (Kind.block.enclose []) = ['/'] ∧ ofText (Kind.block.enclose []) ≠ empty := by
  refine ⟨rfl, rfl, ?_, ?_, ?_⟩ <;> decide +kernel

end Label

end Marginalia
