/-
Marginalia.Proofs.Comment.Label — how many lines a label has.

Taking a marker off and trimming only leave characters out (`strip_sublist`), so
a label has a line feed only where its comment has one. The lines of a comment
are joined if it holds both delimiters of a block (`joinLines`), and not
otherwise.

* A line comment lies on one line, and a block holds its own delimiters; so
  their labels are single lines.
* An HTML comment may span lines without holding the delimiters of a block. The
  line feeds inside of it stay in its label, as far as the label goes
  (`Label.shown`).

`lineFeed_mem_ofText_iff` says that this is the only way for a label to have a
line feed.
-/
import Marginalia.Comment.Label
import Marginalia.Proofs.Comment.Grammar
import Marginalia.Proofs.Comment.Search
import Marginalia.Proofs.Text.Trim

namespace Marginalia

/-! ## 1. What is left out -/

namespace Label

/-- Characters are left out behind a text if they are left out in front of its mirror image. -/
theorem reverse_sublist_of_reverse_eq {s t back : Text} (hback : t.reverse = back)
    (h : s.Sublist back) : s.reverse.Sublist t := by
  rw [← List.reverse_sublist, List.reverse_reverse, hback]
  exact h

theorem dropLineMarker_sublist (t : Text) : (dropLineMarker t).Sublist t := by
  unfold dropLineMarker
  split
  next rest => exact ((List.dropWhile_sublist _).cons '/').cons '/'
  next => exact List.Sublist.refl _

theorem dropBlockOpener_sublist (t : Text) : (dropBlockOpener t).Sublist t := by
  unfold dropBlockOpener
  split
  next rest =>
    exact (((List.dropWhile_sublist _).trans (List.dropWhile_sublist _)).cons '*').cons '/'
  next => exact List.Sublist.refl _

theorem dropBlockCloser_sublist (t : Text) : (dropBlockCloser t).Sublist t := by
  unfold dropBlockCloser
  split
  next rest hback =>
    exact reverse_sublist_of_reverse_eq hback
      ((((List.dropWhile_sublist _).trans (List.dropWhile_sublist _)).cons '*').cons '/')
  next => exact List.Sublist.refl _

theorem dropHtmlOpener_sublist (t : Text) : (dropHtmlOpener t).Sublist t := by
  unfold dropHtmlOpener
  split
  next rest =>
    exact ((((List.dropWhile_sublist _).cons '-').cons '-').cons '!').cons '<'
  next => exact List.Sublist.refl _

theorem dropHtmlCloser_sublist (t : Text) : (dropHtmlCloser t).Sublist t := by
  unfold dropHtmlCloser
  split
  next rest hback =>
    exact reverse_sublist_of_reverse_eq hback
      ((((List.dropWhile_sublist _).cons '-').cons '-').cons '>')
  next => exact List.Sublist.refl _

theorem dropHashMarker_sublist (t : Text) : (dropHashMarker t).Sublist t := by
  unfold dropHashMarker
  split
  next rest => exact (List.dropWhile_sublist _).cons '#'
  next => exact List.Sublist.refl _

/-- Nothing is added or moved when the markers are taken off. -/
theorem strip_sublist (t : Text) : (strip t).Sublist t :=
  (Text.trim_sublist _).trans <| (dropHashMarker_sublist _).trans <|
    (dropHtmlCloser_sublist _).trans <| (dropHtmlOpener_sublist _).trans <|
      (dropBlockCloser_sublist _).trans <| (dropBlockOpener_sublist _).trans <|
        dropLineMarker_sublist t

theorem dropStar_sublist (line : Text) : (dropStar line).Sublist line := by
  unfold dropStar
  split
  next c rest hline =>
    have hrest : ('*' :: c :: rest).Sublist line := hline ▸ Text.trimStart_sublist line
    split
    next => exact (List.sublist_cons_self c rest).trans ((List.sublist_cons_self _ _).trans hrest)
    next => exact (List.sublist_cons_self _ _).trans hrest
  next => exact List.nil_sublist line
  next => exact List.Sublist.refl _

/-! ## 2. Lines that are joined -/

theorem mem_join {separator : Text} {c : Char} : ∀ {parts : List Text},
    c ∈ Text.join separator parts → c ∈ separator ∨ ∃ part ∈ parts, c ∈ part
  | [], h => absurd h List.not_mem_nil
  | [part], h => by
      rw [Text.join, List.intercalate_singleton] at h
      exact .inr ⟨part, List.mem_cons_self, h⟩
  | part :: next :: rest, h => by
      rw [Text.join, List.intercalate_cons_cons, List.mem_append, List.mem_append] at h
      rcases h with (h | h) | h
      · exact .inr ⟨part, List.mem_cons_self, h⟩
      · exact .inl h
      · rcases mem_join h with h | ⟨p, hp, h⟩
        · exact .inl h
        · exact .inr ⟨p, List.mem_cons_of_mem _ hp, h⟩

/-- Lines that are joined are one line. -/
theorem lineFeed_not_mem_joinLines (t : Text) : '\n' ∉ joinLines t := by
  intro h
  rcases mem_join ((Text.trim_sublist _).subset h) with h | ⟨part, hpart, h⟩
  · revert h
    decide
  · obtain ⟨line, hline, rfl⟩ := List.mem_map.mp hpart
    have hmem : '\n' ∈ line := (dropStar_sublist line).subset ((Text.trim_sublist _).subset h)
    exact lineFeed_not_mem_of_mem_splitLines hline hmem

/-! ## 3. Labels that are cut -/

/-- As much of a text as a label of at most `limit` characters has: all of it, or what leaves room
for the dots. -/
def shown (limit : Int) (t : Text) : Text :=
  if (t.length : Int) > limit then Text.cutEnd (limit - 3) t else t

theorem shown_sublist (limit : Int) (t : Text) : (shown limit t).Sublist t := by
  unfold shown
  split
  · unfold Text.cutEnd
    split
    · exact List.take_sublist _ _
    · exact List.take_sublist _ _
  · exact List.Sublist.refl _

/-- Neither the dots nor the label of an empty comment have a line feed. -/
theorem lineFeed_mem_fit_iff {limit : Int} {t : Text} : '\n' ∈ fit limit t ↔ '\n' ∈ shown limit t := by
  have hellipsis : '\n' ∉ ellipsis := by decide
  have hempty : '\n' ∉ empty := by decide
  unfold fit shown
  split
  next => simp [hellipsis]
  next =>
    split
    next ht => simp [List.isEmpty_iff.mp ht, hempty]
    next => rfl

/-! ## 4. The labels of comments that are found -/

theorem occursIn_iff {piece t : Text} : Text.occursIn piece t = true ↔ piece <:+: t := by
  induction t with
  | nil => rw [Text.occursIn, List.isEmpty_iff, List.infix_nil]
  | cons c rest ih =>
    rw [Text.occursIn, Bool.or_eq_true, List.isPrefixOf_iff_prefix, ih, List.infix_cons_iff]

/-- What lies between the delimiters of a block holds them. -/
theorem hasBlock_enclosed (body : Text) : hasBlock (['/', '*'] ++ (body ++ ['*', '/'])) = true := by
  have hopener : ['/', '*'] <:+: ['/', '*'] ++ (body ++ ['*', '/']) :=
    (List.prefix_append _ _).isInfix
  have hcloser : ['*', '/'] <:+: ['/', '*'] ++ (body ++ ['*', '/']) :=
    ⟨['/', '*'] ++ body, [], by simp⟩
  rw [hasBlock, occursIn_iff.mpr hopener, occursIn_iff.mpr hcloser]
  rfl

end Label

/-- A comment of a delimited pass is of its style and lies between its delimiters. -/
theorem enclosed_of_mem_delimitedMatches {d : Delimiters} {content : Text} {m : Match}
    (h : m ∈ delimitedMatches d 0 content) :
    m.kind = d.kind ∧ ∃ body, m.text = d.opener ++ (body ++ d.closer) := by
  have hsearched : d.Searched content 0 (delimitedMatches d 0 content) :=
    searched_delimitedMatches (Nat.zero_le _) rfl
  obtain ⟨_, _, ⟨before, body, after, rfl, rfl, rfl⟩, rfl⟩ := hsearched.exists_of_mem m h
  refine ⟨rfl, body, ?_⟩
  have hmatch := Delimiters.matchAt_append d before (d.opener ++ (body ++ d.closer)) after
  simp only [List.append_assoc, List.length_append, ← Nat.add_assoc] at hmatch
  rw [hmatch]

/-- A comment of the line pass is a line comment or a hash comment, and lies on one line. -/
theorem singleLine_of_mem_lineMatches {content : Text} {m : Match}
    (h : m ∈ lineMatches 0 1 (splitLines content)) :
    (m.kind = .line ∨ m.kind = .hash) ∧ '\n' ∉ m.text := by
  obtain ⟨before, line, after, hsplit, hm⟩ := mem_lineMatches h
  obtain ⟨indent, -, -, -, -, htext⟩ := lineMatch?_eq_some hm
  obtain ⟨kind, _, _, hreads, rfl⟩ := lineMatch?_eq_some_iff.mp hm
  refine ⟨hreads.kind_eq, fun hmem => ?_⟩
  have hline : line ∈ splitLines content := by
    rw [hsplit]
    exact List.mem_append_right _ List.mem_cons_self
  exact lineFeed_not_mem_of_mem_splitLines hline (List.mem_of_mem_drop (htext.subset hmem))

namespace Label

/-- A text that lies on one line, or that holds the delimiters of a block, has a label of one
line. -/
theorem lineFeed_not_mem_ofText {t : Text} (h : '\n' ∉ t ∨ hasBlock t = true) :
    '\n' ∉ ofText t := by
  rw [ofText, within, lineFeed_mem_fit_iff]
  intro hmem
  have hfull := (shown_sublist _ _).subset hmem
  unfold full at hfull
  split at hfull
  next => exact lineFeed_not_mem_joinLines _ hfull
  next hblock =>
    rcases h with hline | hblock'
    · exact hline ((strip_sublist t).subset hfull)
    · exact hblock hblock'

/-- The label of a comment that is found has a line feed only if it is an HTML comment without the
delimiters of a block, and what is left of it without markers has one, as far as it is shown. -/
theorem lineFeed_mem_ofText_iff {content : Text} {m : Match} (h : m ∈ matchesIn content) :
    '\n' ∈ ofText m.text ↔ m.kind = .html ∧ hasBlock m.text = false ∧
      '\n' ∈ shown defaultLimit (strip m.text) := by
  rcases List.mem_append.mp h with h | h
  · have hnone : m.kind ≠ .html ∧ '\n' ∉ ofText m.text := by
      rcases List.mem_append.mp h with h | h
      · obtain ⟨hkind, hline⟩ := singleLine_of_mem_lineMatches h
        refine ⟨?_, lineFeed_not_mem_ofText (.inl hline)⟩
        rcases hkind with hkind | hkind <;> simp [hkind]
      · obtain ⟨hkind, body, htext⟩ := enclosed_of_mem_delimitedMatches h
        refine ⟨by simp [hkind, blockDelimiters], lineFeed_not_mem_ofText (.inr ?_)⟩
        rw [htext]
        exact hasBlock_enclosed body
    exact iff_of_false hnone.2 fun hhtml => hnone.1 hhtml.1
  · have hkind : m.kind = .html := (enclosed_of_mem_delimitedMatches h).1
    cases hblock : hasBlock m.text with
    | true => exact iff_of_false (lineFeed_not_mem_ofText (.inr hblock)) (by simp)
    | false =>
      rw [ofText, within, lineFeed_mem_fit_iff, full, hblock]
      simp [hkind]

end Label

end Marginalia
