/-
Marginalia.Proofs.Comment.Leading — blank text in front.

Blank lines at the top, an indent in front of the first line and a byte order
mark have this in common: they consist of characters that may be indent. Such a
text in front of a content moves the comments and does nothing else. It adds
its line feeds to every line number, and what it leaves of a line, behind its
last line feed, to the columns of the first line.

* `Match.moved` is a match further on in the text, its position forgotten. One
  more character of indent in front moves every match by one
  (`moved_matchesIn_cons`), so a whole text of them moves them by its length
  (`moved_matchesIn_append`).
* A line feed makes an empty line, on which there is no comment. Any other
  character joins the first line, where the line pass takes it for indent.
* No opener begins with indent, so no stretch begins in front of the content
  (`encloses_cons_iff`). At the seam nothing can come about: an opener that
  began in front would begin with indent.
* Positions follow from offsets. The same text stands in front of a place, with
  the blank text before it (`Position.At.below`).
-/
import Marginalia.Proofs.Comment.Grammar
import Marginalia.Proofs.Comment.Search
import Marginalia.Proofs.Text.Position

namespace Marginalia

/-! ## 1. Places -/

/-- The position of a place when a text is put in front of the content. -/
def Position.below (front : Text) (p : Position) : Position where
  line := p.line + front.count '\n'
  column := if p.line = 1 then p.column + (Text.lastLine front).length else p.column

/-- A place keeps what stands before it, behind the text that is put in front. -/
theorem Position.At.below {content : Text} {p : Position} {offset : Nat}
    (h : At (splitLines content) p offset) (hoffset : offset ≤ content.length) (front : Text) :
    At (splitLines (front ++ content)) (p.below front) (front.length + offset) := by
  have hle : front.length + offset ≤ (front ++ content).length := by
    rw [List.length_append]
    omega
  obtain ⟨q, hq⟩ := exists_at_of_le_length hle
  suffices hqp : q = p.below front from hqp ▸ hq
  have hcount := h.count_lineFeed
  have hcolumn := h.column_eq
  have hqcount := hq.count_lineFeed
  have hqcolumn := hq.column_eq
  rw [List.take_length_add_append] at hqcount hqcolumn
  rw [List.count_append] at hqcount
  have hline : q.line = p.line + front.count '\n' := by omega
  have hside : q.column = if p.line = 1 then p.column + (Text.lastLine front).length
      else p.column := by
    by_cases hfeed : '\n' ∈ content.take offset
    · have hpos : 0 < (content.take offset).count '\n' := List.count_pos_iff.mpr hfeed
      rw [if_neg (by omega), hqcolumn, hcolumn, Text.lastLine_append_of_mem hfeed]
    · have hzero : (content.take offset).count '\n' = 0 := List.count_eq_zero.mpr hfeed
      rw [if_pos (by omega), hqcolumn, hcolumn, Text.lastLine_append_of_not_mem hfeed,
        Text.lastLine_of_not_mem hfeed, List.length_append]
      omega
  obtain ⟨line, column⟩ := q
  simp only at hline hside
  rw [hline, hside, Position.below]

/-! ## 2. Matches further on -/

/-- The match `k` characters further on, its position forgotten. -/
def Match.moved (k : Nat) (m : Match) : Match := { m with offset := m.offset + k, position := none }

theorem Match.moved_moved (j k : Nat) (m : Match) : (m.moved j).moved k = m.moved (j + k) := by
  simp only [moved, Nat.add_assoc]

/-! ## 3. The line pass -/

/-- The comment of a line is further on by as much as the line. -/
theorem moved_lineMatch? (start k number number' : Nat) (line : Text) :
    (lineMatch? (start + k) number' line).map (Match.moved 0)
      = (lineMatch? start number line).map (Match.moved k) := by
  simp only [lineMatch?, Option.map_map, Function.comp_def, Match.moved, Nat.add_zero,
    Nat.add_right_comm]

/-- One more character of indent moves the comment of a line by one. -/
theorem moved_lineMatch?_cons {c : Char} (hc : isIndent c = true) (start number : Nat)
    (line : Text) :
    (lineMatch? start number (c :: line)).map (Match.moved 0)
      = (lineMatch? start number line).map (Match.moved 1) := by
  simp only [lineMatch?, List.takeWhile_cons_of_pos hc, List.dropWhile_cons_of_pos hc,
    List.length_cons, Option.map_map, Function.comp_def, Match.moved, Nat.add_zero, Nat.add_assoc]

theorem moved_lineMatches (k : Nat) : ∀ (lines : List Text) (start number number' : Nat),
    (lineMatches (start + k) number' lines).map (Match.moved 0)
      = (lineMatches start number lines).map (Match.moved k)
  | [], _, _, _ => rfl
  | line :: rest, start, number, number' => by
      rw [lineMatches, lineMatches, List.map_append, List.map_append, ← Option.toList_map,
        ← Option.toList_map, moved_lineMatch? start k number number',
        Nat.add_right_comm start k, Nat.add_right_comm _ k,
        moved_lineMatches k rest _ (number + 1) (number' + 1)]

theorem moved_lineMatches_cons {c : Char} (hc : isIndent c = true) (content : Text) :
    (lineMatches 0 1 (splitLines (c :: content))).map (Match.moved 0)
      = (lineMatches 0 1 (splitLines content)).map (Match.moved 1) := by
  by_cases hfeed : c = '\n'
  · subst hfeed
    rw [splitLines_lineFeed]
    exact moved_lineMatches 1 (splitLines content) 0 1 2
  · obtain ⟨line, rest, hsplit⟩ := List.exists_cons_of_ne_nil (splitLines_ne_nil content)
    rw [splitLines_cons hfeed, hsplit, List.modifyHead_cons, lineMatches, lineMatches,
      List.map_append, List.map_append, ← Option.toList_map, ← Option.toList_map,
      moved_lineMatch?_cons hc, List.length_cons, ← Nat.add_assoc 0, Nat.add_right_comm _ 1,
      moved_lineMatches 1 rest _ 2 2]

/-! ## 4. The delimited passes -/

namespace Delimiters

variable {d : Delimiters} {c : Char} {content : Text}

/-- The stretches are where they were behind one more character in front, if no opener begins with
that character. -/
theorem encloses_cons_iff (hc : d.opener.head? ≠ some c) {i' j' : Nat} :
    d.Encloses (c :: content) i' j' ↔ ∃ i j, i + 1 = i' ∧ j + 1 = j' ∧ d.Encloses content i j := by
  constructor
  · rintro ⟨before, body, after, hcontent, rfl, rfl⟩
    cases before with
    | nil =>
      -- the opener would begin in front
      obtain ⟨x, opener, hopener⟩ := List.exists_cons_of_ne_nil d.opener_ne_nil
      rw [hopener] at hcontent hc
      exact absurd (congrArg some (List.cons.inj hcontent).1.symm) hc
    | cons b before =>
      obtain ⟨-, rfl⟩ := List.cons.inj hcontent
      refine ⟨before.length, _, rfl, ?_, before, body, after, rfl, rfl, rfl⟩
      rw [List.length_cons]
      omega
  · rintro ⟨_, _, rfl, rfl, before, body, after, rfl, rfl, rfl⟩
    refine ⟨c :: before, body, after, rfl, rfl, ?_⟩
    omega

/-- A search finds the same from the start if no stretch begins before the place where it began. -/
theorem Searched.from_zero {pos : Nat} {ms : List Match}
    (hnone : ∀ i j, i < pos → ¬d.Encloses content i j) (h : d.Searched content pos ms) :
    d.Searched content 0 ms := by
  have hpos : ∀ i j, d.Encloses content i j → pos ≤ i := fun i j hij =>
    Nat.le_of_not_lt fun hlt => hnone i j hlt hij
  cases h with
  | nothing hnothing =>
    exact .nothing fun i j _ hij => hnothing i j (hpos i j hij) hij
  | found hfinds hrest =>
    refine .found ⟨hfinds.encloses, Nat.zero_le _, fun i j _ hij => ?_, hfinds.stop_le⟩ hrest
    exact hfinds.start_le i j (hpos i j hij) hij

end Delimiters

theorem moved_delimitedMatches_cons {d : Delimiters} {c : Char} (hc : d.opener.head? ≠ some c)
    (content : Text) :
    (delimitedMatches d 0 (c :: content)).map (Match.moved 0)
      = (delimitedMatches d 0 content).map (Match.moved 1) := by
  have hsearch : d.Searched content 0 (delimitedMatches d 0 content) :=
    searched_delimitedMatches (Nat.zero_le _) rfl
  have hmoved := hsearch.map (f := (· + 1)) (fun _ _ => Nat.succ_lt_succ)
    fun _ _ => Delimiters.encloses_cons_iff hc
  have hscan : d.Searched (c :: content) 0 (delimitedMatches d 0 (c :: content)) :=
    searched_delimitedMatches (Nat.zero_le _) rfl
  have hfront : ∀ i j, i < 0 + 1 → ¬d.Encloses (c :: content) i j := by
    intro i j hi hij
    obtain ⟨k, _, rfl, -, -⟩ := (Delimiters.encloses_cons_iff hc).mp hij
    omega
  rw [hscan.unique (hmoved.from_zero hfront), List.map_map]
  refine List.map_congr_left fun m hm => ?_
  obtain ⟨start, stop, hencloses, rfl⟩ := hsearch.exists_of_mem m hm
  rw [Function.comp_apply, hencloses.offset_add_length]
  simp only [Delimiters.matchAt, Match.moved, List.drop_succ_cons, Nat.add_sub_add_right,
    Nat.add_zero]

/-! ## 5. All passes -/

/-- One more character of indent in front moves every match by one. -/
theorem moved_matchesIn_cons {c : Char} (hc : isIndent c = true) (content : Text) :
    (matchesIn (c :: content)).map (Match.moved 0) = (matchesIn content).map (Match.moved 1) := by
  have hblock : blockDelimiters.opener.head? ≠ some c := by
    rintro ⟨⟩
    exact absurd hc (by decide)
  have hhtml : htmlDelimiters.opener.head? ≠ some c := by
    rintro ⟨⟩
    exact absurd hc (by decide)
  simp only [matchesIn, List.map_append, moved_lineMatches_cons hc,
    moved_delimitedMatches_cons hblock, moved_delimitedMatches_cons hhtml]

theorem moved_matchesIn_append {content : Text} : ∀ {front : Text},
    (∀ c ∈ front, isIndent c = true) →
    (matchesIn (front ++ content)).map (Match.moved 0)
      = (matchesIn content).map (Match.moved front.length)
  | [], _ => rfl
  | c :: front, h => by
      have hmore : (matchesIn (front ++ content)).map (Match.moved 0) = _ :=
        moved_matchesIn_append fun x hx => h x (List.mem_cons_of_mem c hx)
      calc (matchesIn (c :: (front ++ content))).map (Match.moved 0)
          = (matchesIn (front ++ content)).map (Match.moved 1) :=
            moved_matchesIn_cons (h c List.mem_cons_self) _
        _ = ((matchesIn (front ++ content)).map (Match.moved 0)).map (Match.moved 1) := by
            simp only [List.map_map, Function.comp_def, Match.moved_moved, Nat.zero_add]
        _ = (matchesIn content).map (Match.moved (c :: front).length) := by
            rw [hmore, List.map_map, List.length_cons]
            simp only [Function.comp_def, Match.moved_moved]

/-! ## 6. Comments -/

/-- The comment at the offset of a match. -/
def Match.report (path content : Text) (m : Match) : Comment :=
  ⟨path, m.text, Position.inLines (splitLines content) m.offset, m.kind⟩

/-- A comment is where its match is, whatever the match knows of it. -/
theorem extractComments_eq (path content : Text) :
    extractComments path content
      = ((matchesIn content).map (Match.moved 0)).map (Match.report path content) := by
  rw [extractComments, List.map_map]
  refine List.map_congr_left fun m hm => ?_
  have hplace := (sits_of_mem_matchesIn hm).locate_at.inLines_eq
  simp only [Function.comp_apply, Match.report, Match.moved, Nat.add_zero, hplace]

/-- A comment as it is when a text is put in front of the content. -/
def Comment.below (front : Text) (c : Comment) : Comment :=
  { c with position := c.position.below front }

/-- **Blank text in front moves comments and does nothing else.** Of blank characters, line feeds
included, and byte order marks in front of a content, the line feeds add to the line of every
comment, and the characters behind the last line feed add to the column of every comment of the
first line. -/
theorem extractComments_indent_append (path content : Text) {front : Text}
    (h : ∀ c ∈ front, isIndent c = true) :
    extractComments path (front ++ content)
      = (extractComments path content).map (Comment.below front) := by
  rw [extractComments_eq, moved_matchesIn_append h, extractComments, List.map_map, List.map_map]
  refine List.map_congr_left fun m hm => ?_
  have hsits := sits_of_mem_matchesIn hm
  have hplace := (hsits.locate_at.below (Nat.le_of_lt hsits.offset_lt) front).inLines_eq
  rw [Nat.add_comm front.length] at hplace
  simp only [Function.comp_apply, Match.report, Match.moved, Comment.below, hplace]

/-- A byte order mark, a blank line with a return, and a tab in front of a line comment, a block
that goes on over the second line, and a `#` line. -/
theorem extractComments_markedTop :
    (∀ c ∈ "\uFEFF \r\n\t".toList, isIndent c = true) ∧
      extractComments ['f'] ("\uFEFF \r\n\t".toList ++ "// a /* b\n*/\n # c".toList)
        = (extractComments ['f'] "// a /* b\n*/\n # c".toList).map
            (Comment.below "\uFEFF \r\n\t".toList) ∧
      (extractComments ['f'] "// a /* b\n*/\n # c".toList).map
          (fun c => (c.position, (c.below "\uFEFF \r\n\t".toList).position))
        = [(⟨1, 0⟩, ⟨2, 1⟩), (⟨3, 1⟩, ⟨4, 1⟩), (⟨1, 5⟩, ⟨2, 6⟩)] := by
  have h : ∀ c ∈ "\uFEFF \r\n\t".toList, isIndent c = true := List.all_eq_true.mp rfl
  exact ⟨h, extractComments_indent_append ['f'] _ h, by decide +kernel⟩

end Marginalia
