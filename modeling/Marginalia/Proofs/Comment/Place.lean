/-
Marginalia.Proofs.Comment.Place — comments stand where they say they stand.

The passes come to positions in two ways. The line pass adds up what it has
read: it knows the number of the line, the offset of its start and the width
of its indent. The other passes know an offset only, and the position is
searched for afterwards. `Match.Sits` is what both ways have in common: the
text of a match is a piece of the content at its offset, and a position that
it brings along is the position of that offset.

`extractComments_report` reads it off for comments. The column of a line
comment counts blank characters and byte order marks of the indent, and its
text lacks a final carriage return; neither moves its start.
-/
import Mathlib.Data.List.Forall2
import Marginalia.Comment.Find
import Marginalia.Proofs.Text.Lines

namespace Marginalia

/-- A match is a piece of the content at its offset, and knows no wrong position. -/
structure Match.Sits (content : Text) (m : Match) : Prop where
  text_ne_nil : m.text ≠ []
  text_isPrefix : m.text <+: content.drop m.offset
  position_at : ∀ p ∈ m.position, Position.At (splitLines content) p m.offset

/-! ## 1. The line pass -/

theorem marker_ne_nil (k : Kind) : k.marker ≠ [] := by
  cases k <;> simp [Kind.marker]

/-- What is recognised as a line comment begins with its marker. -/
theorem isPrefix_marker {body : Text} {kind : Kind} (h : lineKind? body = some kind) :
    kind.marker <+: body := by
  unfold lineKind? at h
  split at h
  · obtain rfl := Option.some.inj h
    exact ⟨_, rfl⟩
  · obtain rfl := Option.some.inj h
    exact ⟨_, rfl⟩
  · cases h

theorem isPrefix_dropReturn (t : Text) : dropReturn t <+: t := by
  unfold dropReturn
  split
  · exact List.dropLast_prefix t
  · exact List.prefix_refl t

/-- The body of a line is what comes behind its indent. -/
theorem dropWhile_isIndent (line : Text) :
    line.dropWhile isIndent = line.drop (line.takeWhile isIndent).length := by
  have h : (line.takeWhile isIndent ++ line.dropWhile isIndent).drop
      (line.takeWhile isIndent).length = line.dropWhile isIndent := List.drop_left
  rw [← h, List.takeWhile_append_dropWhile]

/-- A comment of a line is a piece of the line behind its indent, and its position is the width of
that indent on this line. -/
theorem lineMatch?_eq_some {start number : Nat} {line : Text} {m : Match}
    (h : lineMatch? start number line = some m) :
    ∃ indent ≤ line.length, m.offset = start + indent ∧ m.position = some ⟨number, indent⟩ ∧
      m.text ≠ [] ∧ m.text <+: line.drop indent := by
  obtain ⟨kind, hkind, rfl⟩ := Option.map_eq_some_iff.mp h
  refine ⟨(line.takeWhile isIndent).length, (List.takeWhile_prefix isIndent).length_le, rfl, rfl,
    ?_, ?_⟩
  · simp [marker_ne_nil]
  · rw [← dropWhile_isIndent]
    obtain ⟨rest, hrest⟩ := isPrefix_marker hkind
    show kind.marker ++ dropReturn ((line.dropWhile isIndent).drop kind.marker.length) <+: _
    rw [← hrest, List.drop_left]
    exact (List.prefix_append_right_inj _).mpr (isPrefix_dropReturn rest)

/-- A comment of the line pass is the comment of one of the lines, counted and measured by the
lines before it. -/
theorem mem_lineMatches {m : Match} : ∀ {lines : List Text} {start number : Nat},
    m ∈ lineMatches start number lines → ∃ before line after, lines = before ++ line :: after ∧
      lineMatch? (start + spanOf before) (number + before.length) line = some m
  | [], _, _, h => by simp [lineMatches] at h
  | line :: rest, start, number, h => by
      rcases List.mem_append.mp h with h | h
      · exact ⟨[], line, rest, rfl, by simpa using h⟩
      · obtain ⟨before, next, after, rfl, hm⟩ := mem_lineMatches h
        refine ⟨line :: before, next, after, rfl, ?_⟩
        rw [spanOf_cons, List.length_cons, ← hm]
        congr 1 <;> omega

/-- The line pass is right about offsets and positions: what it has added up on the way is the span
and the number of the lines before. -/
theorem sits_of_mem_lineMatches {content : Text} {m : Match}
    (h : m ∈ lineMatches 0 1 (splitLines content)) : m.Sits content := by
  obtain ⟨before, line, after, hsplit, hm⟩ := mem_lineMatches h
  obtain ⟨indent, hindent, hoff, hpos, hne, htext⟩ := lineMatch?_eq_some hm
  obtain ⟨rest, hrest⟩ := isPrefix_drop_spanOf hsplit
  refine ⟨hne, ?_, fun p hp => ?_⟩
  · rw [hoff, Nat.zero_add, ← List.drop_drop, ← hrest, List.drop_append_of_le_length hindent]
    exact htext.trans (List.prefix_append _ rest)
  · rw [hpos, Option.mem_some] at hp
    subst hp
    refine ⟨before, line, after, indent, hsplit, hindent, ?_, by rw [hoff, Nat.zero_add]⟩
    rw [Nat.add_comm 1]
    rfl

/-! ## 2. The delimited passes -/

/-- Where a piece is found, it stands. -/
theorem indexOf?_eq_some {piece : Text} : ∀ {t : Text} {n i : Nat}, indexOf? piece n t = some i →
    ∃ k, i = n + k ∧ piece <+: t.drop k
  | [], n, i, h => by
      unfold indexOf? at h
      split at h
      next hp =>
        obtain rfl := Option.some.inj h
        exact ⟨0, rfl, by rw [List.isEmpty_iff.mp hp]; exact List.nil_prefix⟩
      next => cases h
  | c :: rest, n, i, h => by
      unfold indexOf? at h
      split at h
      next hp =>
        obtain rfl := Option.some.inj h
        exact ⟨0, rfl, List.isPrefixOf_iff_prefix.mp hp⟩
      next =>
        obtain ⟨k, hk, hpre⟩ := indexOf?_eq_some h
        exact ⟨k + 1, by omega, hpre⟩

/-- A delimited comment is a piece of the text that was searched, and has no position yet. -/
theorem mem_delimitedMatches {d : Delimiters} {m : Match} {offset : Nat} {t : Text}
    (h : m ∈ delimitedMatches d offset t) :
    ∃ k, m.offset = offset + k ∧ m.position = none ∧ m.text ≠ [] ∧ m.text <+: t.drop k := by
  fun_induction delimitedMatches d offset t with
  | case1 => simp at h
  | case2 => simp at h
  | case3 offset t i hopen j hclose size ih =>
    rcases List.mem_cons.mp h with rfl | h
    · refine ⟨i, rfl, rfl, ?_, List.take_prefix _ _⟩
      obtain ⟨k, hk, hpre⟩ := indexOf?_eq_some hopen
      obtain rfl : i = k := by omega
      -- the opener alone makes the text longer than nothing
      have hsize : 0 < size := Nat.add_pos_left
        (Nat.add_pos_left (List.length_pos_iff.mpr d.opener_ne_nil) _) _
      have hrest : t.drop i ≠ [] := fun hnil =>
        d.opener_ne_nil (List.prefix_nil.mp (hnil ▸ hpre))
      simp only [ne_eq, List.take_eq_nil_iff, hrest, or_false]
      omega
    · obtain ⟨k, hoff, hpos, hne, hpre⟩ := ih h
      refine ⟨i + size + k, by omega, hpos, hne, ?_⟩
      rwa [List.drop_drop] at hpre

theorem sits_of_mem_delimitedMatches {d : Delimiters} {content : Text} {m : Match}
    (h : m ∈ delimitedMatches d 0 content) : m.Sits content := by
  obtain ⟨k, hoff, hpos, hne, hpre⟩ := mem_delimitedMatches h
  refine ⟨hne, ?_, by simp [hpos]⟩
  rwa [hoff, Nat.zero_add]

/-! ## 3. All passes -/

theorem sits_of_mem_matchesIn {content : Text} {m : Match} (h : m ∈ matchesIn content) :
    m.Sits content := by
  rcases List.mem_append.mp h with h | h
  · rcases List.mem_append.mp h with h | h
    · exact sits_of_mem_lineMatches h
    · exact sits_of_mem_delimitedMatches h
  · exact sits_of_mem_delimitedMatches h

/-- A match begins inside the content. -/
theorem Match.Sits.offset_lt {content : Text} {m : Match} (h : m.Sits content) :
    m.offset < content.length := by
  have hpos := List.length_pos_iff.mpr h.text_ne_nil
  have hlen := h.text_isPrefix.length_le
  rw [List.length_drop] at hlen
  omega

/-- Whichever way a match comes to its position, it is the position of its offset. -/
theorem Match.Sits.locate_at {content : Text} {m : Match} (h : m.Sits content) :
    Position.At (splitLines content) (m.locate (splitLines content)) m.offset := by
  cases hp : m.position with
  | some p =>
    have := h.position_at p hp
    rwa [Match.locate, hp, Option.getD_some]
  | none =>
    obtain ⟨p, hat⟩ := Position.exists_at_of_le_length (Nat.le_of_lt h.offset_lt)
    rwa [Match.locate, hp, Option.getD_none, hat.inLines_eq]

/-- A comment reports a match of the content of a file: it is the piece of the content that begins
at the offset of the match, and its line and column are the ones of that offset. -/
structure Comment.Reports (path content : Text) (m : Match) (c : Comment) : Prop where
  path_eq : c.path = path
  kind_eq : c.kind = m.kind
  text_eq : c.text = m.text
  slice_eq : m.text = (content.drop m.offset).take m.text.length
  /-- A position that the pass knows is the one that is reported. -/
  known_eq : ∀ p, m.position = some p → c.position = p
  resolved_eq : Position.ofOffset content m.offset = .ok c.position
  one_le_line : 1 ≤ c.position.line
  line_le : c.position.line ≤ (splitLines content).length
  offset_eq : offsetOf content c.position.line c.position.column = .ok (m.offset : Int)

/-- **Positions are exact.** The comments of a text are its matches, one for one and in order, and
each of them is reported where it stands. -/
theorem extractComments_report (path content : Text) :
    List.Forall₂ (Comment.Reports path content) (matchesIn content)
      (extractComments path content) := by
  rw [extractComments, List.forall₂_map_right_iff, List.forall₂_same]
  intro m hm
  have hsits := sits_of_mem_matchesIn hm
  have hat := hsits.locate_at
  exact {
    path_eq := rfl
    kind_eq := rfl
    text_eq := rfl
    slice_eq := List.prefix_iff_eq_take.mp hsits.text_isPrefix
    known_eq := fun p hp => by rw [Match.locate, hp, Option.getD_some]
    resolved_eq := hat.ofOffset_eq
    one_le_line := hat.one_le_line
    line_le := hat.line_le
    offset_eq := hat.offsetOf_eq }

/-- A byte order mark, a carriage return, a block over two lines with a `#` line in it. -/
example : extractComments ['f'] "\uFEFF // a\r\n/* b\n # c */".toList =
    [⟨['f'], "// a".toList, ⟨1, 2⟩, .line⟩, ⟨['f'], "# c */".toList, ⟨3, 1⟩, .hash⟩,
      ⟨['f'], "/* b\n # c */".toList, ⟨2, 0⟩, .block⟩] := by
  decide +kernel

end Marginalia
