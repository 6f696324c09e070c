/-
Marginalia.Proofs.Comment.Returns — the two conventions for line ends.

A text may end its lines with a line feed, or with a carriage return and a line
feed. `Text.withReturns` goes from the first convention to the second. Every
offset moves, by as many characters as there are line feeds before it
(`Text.moved`), but lines and columns stay, and so do comments: a line comment
loses the return at its end again, and a delimited comment has the returns of
the lines that it goes over.

* Lines (`splitLines_withReturns`): every line but the last gets a return, so a
  position is where it was (`Position.At.withReturns`).
* The line pass (`lineMatch?_append_return`): a return is blank, so it ends up in
  the indent of a line of which nothing else is left, and else at the end of
  the line's body, where it is dropped.
* The delimited passes (`encloses_withReturns_iff`): delimiters hold neither
  character, so they stand in the one text where they stand in the other, and a
  search finds the same stretches.

That the text has no return of its own is used by the line pass only: of two
returns at the end of a line, one would be left.
-/
import Marginalia.Proofs.Comment.Grammar
import Marginalia.Proofs.Comment.Search

namespace Marginalia

/-! ## 1. Texts -/

namespace Text

/-- The text with a carriage return before every line feed. -/
def withReturns (t : Text) : Text := t.flatMap fun c => if c = '\n' then ['\r', '\n'] else [c]

/-- The offset at which the character at an offset comes to lie. -/
def moved (t : Text) (offset : Nat) : Nat := offset + (t.take offset).count '\n'

@[simp] theorem withReturns_nil : withReturns [] = [] := rfl

@[simp] theorem withReturns_lineFeed (rest : Text) :
    withReturns ('\n' :: rest) = '\r' :: '\n' :: withReturns rest := rfl

theorem withReturns_cons {c : Char} (h : c ≠ '\n') (rest : Text) :
    withReturns (c :: rest) = c :: withReturns rest := by
  simp [withReturns, h]

@[simp] theorem withReturns_append (a b : Text) :
    withReturns (a ++ b) = withReturns a ++ withReturns b := by
  simp [withReturns]

theorem length_withReturns (t : Text) : (withReturns t).length = t.length + t.count '\n' := by
  induction t with
  | nil => rfl
  | cons c rest ih =>
    by_cases hc : c = '\n'
    · subst hc
      simp only [withReturns_lineFeed, List.length_cons, ih, List.count_cons_self]
      omega
    · simp only [withReturns_cons hc, List.length_cons, ih, List.count_cons_of_ne hc]
      omega

/-- A text without line feeds has no returns to get. -/
theorem withReturns_of_not_mem {t : Text} (h : '\n' ∉ t) : withReturns t = t := by
  induction t with
  | nil => rfl
  | cons c rest ih =>
    obtain ⟨hc, hrest⟩ := List.ne_and_not_mem_of_not_mem_cons h
    rw [withReturns_cons (Ne.symm hc), ih hrest]

theorem moved_strictMono (t : Text) : StrictMono t.moved := by
  refine strictMono_nat_of_lt_succ fun i => ?_
  have hcount : (t.take i).count '\n' ≤ (t.take (i + 1)).count '\n' :=
    (List.take_prefix_take_left (Nat.le_succ i)).sublist.count_le '\n'
  simp only [moved]
  omega

theorem moved_length (before after : Text) :
    (before ++ after).moved before.length = (withReturns before).length := by
  rw [moved, List.take_left, length_withReturns]

/-- A stretch of the text moves as a whole. -/
theorem take_drop_withReturns (before body after : Text) :
    ((withReturns (before ++ (body ++ after))).drop ((before ++ (body ++ after)).moved before.length)).take
      ((before ++ (body ++ after)).moved (before.length + body.length)
        - (before ++ (body ++ after)).moved before.length) = withReturns body := by
  have hstop : (before ++ (body ++ after)).moved (before.length + body.length)
      = (withReturns before).length + (withReturns body).length := by
    rw [← List.length_append, ← List.length_append, ← withReturns_append, ← List.append_assoc]
    exact moved_length (before ++ body) after
  rw [hstop, moved_length, Nat.add_sub_cancel_left, withReturns_append, withReturns_append,
    List.drop_left, List.take_left]

/-- A piece without line ends that begins a text with returns begins the text without them. -/
theorem eq_append_of_withReturns : ∀ {piece t after : Text}, '\r' ∉ piece → '\n' ∉ piece →
    withReturns t = piece ++ after → ∃ rest, t = piece ++ rest ∧ after = withReturns rest
  | [], t, _, _, _, h => ⟨t, rfl, h.symm⟩
  | p :: piece, [], _, _, _, h => by simp at h
  | p :: piece, c :: t, after, hreturn, hfeed, h => by
      obtain ⟨hp, hreturn'⟩ := List.ne_and_not_mem_of_not_mem_cons hreturn
      obtain ⟨-, hfeed'⟩ := List.ne_and_not_mem_of_not_mem_cons hfeed
      by_cases hc : c = '\n'
      · subst hc
        rw [withReturns_lineFeed, List.cons_append] at h
        exact absurd (List.cons.inj h).1 hp
      · rw [withReturns_cons hc, List.cons_append] at h
        obtain ⟨rfl, htail⟩ := List.cons.inj h
        obtain ⟨rest, rfl, rfl⟩ := eq_append_of_withReturns hreturn' hfeed' htail
        exact ⟨rest, rfl, rfl⟩

/-- A piece without line ends stands in a text with returns where it stands in the text without
them. -/
theorem exists_append_of_withReturns {piece : Text} (hne : piece ≠ []) (hreturn : '\r' ∉ piece)
    (hfeed : '\n' ∉ piece) : ∀ {t before after : Text},
    withReturns t = before ++ (piece ++ after) →
    ∃ first rest, t = first ++ (piece ++ rest) ∧ before = withReturns first ∧
      after = withReturns rest
  | t, [], after, h => by
      obtain ⟨rest, rfl, rfl⟩ := eq_append_of_withReturns hreturn hfeed h
      exact ⟨[], rest, rfl, rfl, rfl⟩
  | [], b :: before, after, h => by simp at h
  | c :: t, b :: before, after, h => by
      by_cases hc : c = '\n'
      · subst hc
        rw [withReturns_lineFeed, List.cons_append] at h
        obtain ⟨rfl, htail⟩ := List.cons.inj h
        cases before with
        | nil =>
          -- the piece would begin with the line feed behind the return
          obtain ⟨p, piece, rfl⟩ := List.exists_cons_of_ne_nil hne
          exact absurd (List.cons.inj htail).1 (List.ne_and_not_mem_of_not_mem_cons hfeed).1
        | cons b before =>
          obtain ⟨rfl, hrest⟩ := List.cons.inj htail
          obtain ⟨first, rest, rfl, rfl, rfl⟩ :=
            exists_append_of_withReturns hne hreturn hfeed hrest
          exact ⟨'\n' :: first, rest, rfl, rfl, rfl⟩
      · rw [withReturns_cons hc, List.cons_append] at h
        obtain ⟨rfl, htail⟩ := List.cons.inj h
        obtain ⟨first, rest, rfl, rfl, rfl⟩ := exists_append_of_withReturns hne hreturn hfeed htail
        exact ⟨c :: first, rest, rfl, (withReturns_cons hc first).symm, rfl⟩

end Text

/-! ## 2. Lines and positions -/

/-- Lines with a carriage return at the end of each but the last. -/
def returned : List Text → List Text
  | [] => []
  | [line] => [line]
  | line :: next :: rest => (line ++ ['\r']) :: returned (next :: rest)

theorem returned_cons {rest : List Text} (h : rest ≠ []) (line : Text) :
    returned (line :: rest) = (line ++ ['\r']) :: returned rest := by
  obtain ⟨next, rest, rfl⟩ := List.exists_cons_of_ne_nil h
  rfl

theorem returned_modifyHead (c : Char) (lines : List Text) :
    returned (lines.modifyHead (c :: ·)) = (returned lines).modifyHead (c :: ·) := by
  match lines with
  | [] => rfl
  | [line] => rfl
  | line :: next :: rest => rfl

/-- The lines of a text with returns. -/
theorem splitLines_withReturns (content : Text) :
    splitLines content.withReturns = returned (splitLines content) := by
  induction content with
  | nil => rfl
  | cons c rest ih =>
    by_cases hc : c = '\n'
    · subst hc
      rw [Text.withReturns_lineFeed, splitLines_cons (by decide), splitLines_lineFeed,
        splitLines_lineFeed, returned_cons (splitLines_ne_nil rest), ih]
      rfl
    · rw [Text.withReturns_cons hc, splitLines_cons hc, splitLines_cons hc, returned_modifyHead, ih]

theorem returned_append (line : Text) (after : List Text) : ∀ before : List Text,
    returned (before ++ line :: after) = before.map (· ++ ['\r']) ++ returned (line :: after)
  | [] => rfl
  | first :: before => by
      rw [List.cons_append, returned_cons (by simp), returned_append line after before]
      rfl

theorem exists_returned_cons (line : Text) (after : List Text) :
    ∃ line' after', returned (line :: after) = line' :: after' ∧ line.length ≤ line'.length := by
  cases after with
  | nil => exact ⟨line, [], rfl, Nat.le_refl _⟩
  | cons next rest => exact ⟨line ++ ['\r'], returned (next :: rest), rfl, by simp⟩

theorem spanOf_map_return (lines : List Text) :
    spanOf (lines.map (· ++ ['\r'])) = spanOf lines + lines.length := by
  induction lines with
  | nil => rfl
  | cons line rest ih =>
    simp only [List.map_cons, spanOf_cons, ih, List.length_append, List.length_cons,
      List.length_nil]
    omega

/-- A place keeps its line and its column, and its offset moves. -/
theorem Position.At.withReturns {content : Text} {p : Position} {offset : Nat}
    (h : At (splitLines content) p offset) :
    At (splitLines content.withReturns) p (content.moved offset) := by
  have hcount := h.count_lineFeed
  obtain ⟨before, line, after, column, hsplit, hcolumn, rfl, rfl⟩ := h
  obtain ⟨line', after', hline, hlength⟩ := exists_returned_cons line after
  refine ⟨before.map (· ++ ['\r']), line', after', column, ?_, Nat.le_trans hcolumn hlength, ?_, ?_⟩
  · rw [splitLines_withReturns, hsplit, returned_append, hline]
  · rw [List.length_map]
  · rw [spanOf_map_return, Text.moved]
    simp only at hcount
    omega

/-! ## 3. What becomes of a match -/

/-- The text of a comment of a style, with the returns of the lines that it goes over. -/
def Kind.withReturns (kind : Kind) (t : Text) : Text :=
  match kind with
  | .line | .hash => t
  | .block | .html => t.withReturns

/-- A comment as it is in the text with returns. -/
def Comment.withReturns (c : Comment) : Comment := { c with text := c.kind.withReturns c.text }

/-- Whether a match in the text with returns is what has become of a match in the text. -/
structure Match.Becomes (content : Text) (m m' : Match) : Prop where
  kind_eq : m'.kind = m.kind
  text_eq : m'.text = m.kind.withReturns m.text
  locate_eq : m'.locate (splitLines content.withReturns) = m.locate (splitLines content)

/-! ## 4. The line pass -/

/-- A return behind a line comment belongs to its rest, and to nothing else. -/
theorem lineReads_append_return_iff {line indent rest : Text} {kind : Kind} :
    LineReads (line ++ ['\r']) kind indent rest ↔
      ∃ rest', rest = rest' ++ ['\r'] ∧ LineReads line kind indent rest' := by
  constructor
  · rintro ⟨hkind, hline, hindent⟩
    rcases List.eq_nil_or_concat' rest with rfl | ⟨rest', c, rfl⟩
    · -- the marker would end in the return
      exfalso
      have hlast := congrArg List.getLast? hline
      rcases hkind with rfl | rfl
      · simp [Kind.marker] at hlast
      · simp [Kind.marker] at hlast
    · rw [← List.append_assoc, ← List.append_assoc] at hline
      obtain ⟨rfl, hc⟩ := List.append_inj' hline rfl
      obtain rfl := (List.cons.inj hc).1
      exact ⟨rest', rfl, hkind, List.append_assoc _ _ _, hindent⟩
  · rintro ⟨rest', rfl, hkind, rfl, hindent⟩
    exact ⟨hkind, by simp, hindent⟩

theorem dropReturn_of_not_mem {t : Text} (h : '\r' ∉ t) : dropReturn t = t :=
  dropReturn_eq_iff.mpr (.inr ⟨rfl, fun hlast => h (List.mem_of_getLast? hlast)⟩)

/-- A return at the end of a line does not change what is found on the line. -/
theorem lineMatch?_append_return {line : Text} (h : '\r' ∉ line) (start number : Nat) :
    lineMatch? start number (line ++ ['\r']) = lineMatch? start number line := by
  have hmatch : ∀ {kind : Kind} {indent rest : Text}, LineReads line kind indent rest →
      Capture.toMatch start number kind ⟨indent, rest ++ ['\r']⟩
        = Capture.toMatch start number kind ⟨indent, rest⟩ := by
    intro kind indent rest hreads
    have hrest : '\r' ∉ rest := fun hmem => h (by simp [hreads.line_eq, hmem])
    simp only [Capture.toMatch, dropReturn_of_not_mem hrest,
      dropReturn_eq_iff.mpr (.inl rfl : rest ++ ['\r'] = rest ++ ['\r'] ∨ _)]
  ext m
  rw [lineMatch?_eq_some_iff, lineMatch?_eq_some_iff]
  constructor
  · rintro ⟨kind, indent, _, hreads, rfl⟩
    obtain ⟨rest, rfl, hline⟩ := lineReads_append_return_iff.mp hreads
    exact ⟨kind, indent, rest, hline, hmatch hline⟩
  · rintro ⟨kind, indent, rest, hreads, rfl⟩
    exact ⟨kind, indent, _, lineReads_append_return_iff.mpr ⟨rest, rfl, hreads⟩,
      (hmatch hreads).symm⟩

/-- What is found on a line becomes what is found on it when it starts elsewhere. -/
theorem becomes_lineMatch? (content line : Text) (start start' number : Nat) :
    List.Forall₂ (Match.Becomes content) (lineMatch? start number line).toList
      (lineMatch? start' number line).toList := by
  cases hm : lineMatch? start number line with
  | none =>
    rw [lineMatch?_eq_none_iff.mpr (lineMatch?_eq_none_iff.mp hm)]
    exact List.Forall₂.nil
  | some m =>
    obtain ⟨kind, indent, rest, hreads, rfl⟩ := lineMatch?_eq_some_iff.mp hm
    rw [lineMatch?_eq_some_iff.mpr ⟨kind, indent, rest, hreads, rfl⟩]
    refine List.Forall₂.cons ⟨rfl, ?_, rfl⟩ List.Forall₂.nil
    rcases hreads.kind_eq with rfl | rfl
    · rfl
    · rfl

theorem becomes_lineMatches (content : Text) : ∀ (lines : List Text) (start start' number : Nat),
    (∀ line ∈ lines, '\r' ∉ line) → List.Forall₂ (Match.Becomes content)
      (lineMatches start number lines) (lineMatches start' number (returned lines))
  | [], _, _, _, _ => List.Forall₂.nil
  | [line], start, start', number, _ =>
      List.rel_append (becomes_lineMatch? content line start start' number) List.Forall₂.nil
  | line :: next :: rest, start, start', number, h => by
      show List.Forall₂ _
        ((lineMatch? start number line).toList ++ lineMatches _ _ (next :: rest))
        ((lineMatch? start' number (line ++ ['\r'])).toList
          ++ lineMatches _ _ (returned (next :: rest)))
      rw [lineMatch?_append_return (h line List.mem_cons_self)]
      exact List.rel_append (becomes_lineMatch? content line start start' number)
        (becomes_lineMatches content (next :: rest) _ _ _ fun l hl =>
          h l (List.mem_cons_of_mem _ hl))

/-! ## 5. The delimited passes -/

/-- Delimiters that hold no line end, of a style that goes over lines. -/
structure Delimiters.Inline (d : Delimiters) : Prop where
  closer_ne_nil : d.closer ≠ []
  opener_return : '\r' ∉ d.opener
  opener_lineFeed : '\n' ∉ d.opener
  closer_return : '\r' ∉ d.closer
  closer_lineFeed : '\n' ∉ d.closer
  withReturns_eq : ∀ t, d.kind.withReturns t = t.withReturns

theorem inline_blockDelimiters : blockDelimiters.Inline :=
  ⟨by decide, by decide, by decide, by decide, by decide, fun _ => rfl⟩

theorem inline_htmlDelimiters : htmlDelimiters.Inline :=
  ⟨by decide, by decide, by decide, by decide, by decide, fun _ => rfl⟩

section

variable {d : Delimiters} {content : Text}

/-- The stretches of a text with returns are those of the text, moved. -/
theorem encloses_withReturns_iff (hd : d.Inline) {i' j' : Nat} :
    d.Encloses content.withReturns i' j' ↔
      ∃ i j, content.moved i = i' ∧ content.moved j = j' ∧ d.Encloses content i j := by
  have hopener := Text.withReturns_of_not_mem hd.opener_lineFeed
  have hcloser := Text.withReturns_of_not_mem hd.closer_lineFeed
  have hmoved : ∀ before body after : Text,
      (before ++ (d.opener ++ (body ++ (d.closer ++ after)))).moved
        (before.length + d.opener.length + body.length + d.closer.length)
      = before.withReturns.length + d.opener.length + body.withReturns.length
        + d.closer.length := by
    intro before body after
    have := Text.moved_length (before ++ d.opener ++ body ++ d.closer) after
    simpa only [List.append_assoc, List.length_append, Text.withReturns_append, hopener, hcloser,
      Nat.add_assoc] using this
  constructor
  · rintro ⟨_, _, _, hsplit, rfl, rfl⟩
    obtain ⟨before, rest, rfl, rfl, hrest⟩ := Text.exists_append_of_withReturns d.opener_ne_nil
      hd.opener_return hd.opener_lineFeed hsplit
    obtain ⟨body, after, rfl, rfl, rfl⟩ := Text.exists_append_of_withReturns hd.closer_ne_nil
      hd.closer_return hd.closer_lineFeed hrest.symm
    exact ⟨_, _, Text.moved_length _ _, hmoved before body after, before, body, after, rfl, rfl, rfl⟩
  · rintro ⟨_, _, rfl, rfl, before, body, after, rfl, rfl, rfl⟩
    refine ⟨before.withReturns, body.withReturns, after.withReturns, ?_, Text.moved_length _ _, ?_⟩
    · simp only [Text.withReturns_append, hopener, hcloser]
    · rw [hmoved, Text.moved_length]

/-- A delimited match becomes the match of the moved stretch. -/
theorem becomes_matchAt (hd : d.Inline) {start stop : Nat} (h : d.Encloses content start stop) :
    Match.Becomes content (d.matchAt content start stop)
      (d.matchAt content.withReturns (content.moved start) (content.moved stop)) := by
  have hstart : start ≤ content.length :=
    Nat.le_of_lt (Nat.lt_of_lt_of_le h.start_lt h.stop_le_length)
  obtain ⟨p, hat⟩ := Position.exists_at_of_le_length hstart
  refine ⟨rfl, ?_, ?_⟩
  · obtain ⟨before, text, after, rfl, rfl, rfl⟩ := h.exists_append
    rw [Delimiters.matchAt_append, hd.withReturns_eq]
    exact Text.take_drop_withReturns before text after
  · have hbefore : Position.inLines (splitLines content) start = p := hat.inLines_eq
    have hafter : Position.inLines (splitLines content.withReturns) (content.moved start) = p :=
      hat.withReturns.inLines_eq
    exact hafter.trans hbefore.symm

theorem becomes_delimitedMatches (hd : d.Inline) : List.Forall₂ (Match.Becomes content)
    (delimitedMatches d 0 content) (delimitedMatches d 0 content.withReturns) := by
  have hsearch : d.Searched content 0 (delimitedMatches d 0 content) :=
    searched_delimitedMatches (Nat.zero_le _) rfl
  have hmoved := hsearch.map content.moved_strictMono fun _ _ => encloses_withReturns_iff hd
  have hscan : d.Searched content.withReturns 0 (delimitedMatches d 0 content.withReturns) :=
    searched_delimitedMatches (Nat.zero_le _) rfl
  rw [hscan.unique hmoved, List.forall₂_map_right_iff, List.forall₂_same]
  intro m hm
  obtain ⟨start, stop, hencloses, rfl⟩ := hsearch.exists_of_mem m hm
  rw [hencloses.offset_add_length]
  exact becomes_matchAt hd hencloses

end

/-! ## 6. Comments -/

theorem becomes_matchesIn {content : Text} (h : '\r' ∉ content) :
    List.Forall₂ (Match.Becomes content) (matchesIn content) (matchesIn content.withReturns) := by
  have hlines : ∀ line ∈ splitLines content, '\r' ∉ line := fun line hline hmem =>
    h (mem_of_mem_splitLines hline hmem)
  have hpass := becomes_lineMatches content (splitLines content) 0 0 1 hlines
  rw [← splitLines_withReturns] at hpass
  exact List.rel_append (List.rel_append hpass (becomes_delimitedMatches inline_blockDelimiters))
    (becomes_delimitedMatches inline_htmlDelimiters)

/-- **Comments do not depend on the convention for line ends.** In a text without carriage returns,
a carriage return before each line feed leaves every comment, in order, with its style, its line and
its column. Line comments keep their text, and delimited ones get the returns of the lines that they
go over. -/
theorem extractComments_withReturns (path : Text) {content : Text} (h : '\r' ∉ content) :
    extractComments path content.withReturns
      = (extractComments path content).map Comment.withReturns := by
  rw [extractComments, extractComments, List.map_map, ← List.forall₂_eq_eq_eq,
    List.forall₂_map_left_iff, List.forall₂_map_right_iff]
  refine (becomes_matchesIn h).flip.imp fun m' m hm => ?_
  simp only [Function.comp_apply, Comment.withReturns, hm.kind_eq, hm.text_eq, hm.locate_eq]

/-- A block over three lines with a `#` line in it, between line comments. -/
def commentedLines : Text := " // a\n/* b\n # c\n*/\n//".toList

theorem extractComments_commentedLines :
    '\r' ∉ commentedLines ∧
      extractComments ['f'] commentedLines.withReturns
        = (extractComments ['f'] commentedLines).map Comment.withReturns ∧
      (extractComments ['f'] commentedLines.withReturns).map (·.text)
        = ["// a".toList, "# c".toList, "//".toList, "/* b\r\n # c\r\n*/".toList] := by
  have h : '\r' ∉ commentedLines := by decide
  exact ⟨h, extractComments_withReturns ['f'] h, by decide +kernel⟩

end Marginalia
