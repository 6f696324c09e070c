/-
Marginalia.Proofs.Text.Position — offsets and positions, one for one and in
order.

The offsets up to the end of a text and the positions on its lines correspond
to each other. What makes this exact is at the ends of lines: the place of a
line feed belongs to the line that it ends, one column behind the last
character, and the place behind the last character of all belongs to the last
line, be it empty.

* `Text.lastLine` is what stands behind the last line feed. The position of an
  offset is read off the text before the offset: its line feeds give the line
  (`Position.At.count_lineFeed`), its last line the column
  (`Position.At.column_eq`).
* `Position.Before` is the order of positions. A later offset has more text in
  front of it, so it has a later line, or the same line and a later column
  (`Position.At.before`).
* Offsets behind the end have no place on the lines, and the search says the
  start of the last line (`Position.find?_eq_none`).
-/
import Mathlib.Data.List.DropRight
import Marginalia.Proofs.Text.Lines

namespace Marginalia

/-! ## 1. The last line -/

namespace Text

/-- What stands behind the last line feed of a text, or all of it. -/
def lastLine (t : Text) : Text := t.rtakeWhile (· ≠ '\n')

theorem lastLine_append_of_not_mem {part : Text} (h : '\n' ∉ part) (t : Text) :
    lastLine (t ++ part) = lastLine t ++ part := by
  have hall : ∀ c ∈ part.reverse, decide (c ≠ '\n') = true := fun c hc =>
    decide_eq_true fun heq => h (heq ▸ List.mem_reverse.mp hc)
  simp only [lastLine, List.rtakeWhile, List.reverse_append, List.takeWhile_append_of_pos hall,
    List.reverse_reverse]

theorem lastLine_of_not_mem {part : Text} (h : '\n' ∉ part) : lastLine part = part :=
  lastLine_append_of_not_mem h []

/-- In front of a text with a line feed nothing counts. -/
theorem lastLine_append_of_mem {t : Text} (h : '\n' ∈ t) (front : Text) :
    lastLine (front ++ t) = lastLine t := by
  have hpart : (t.reverse.takeWhile (· ≠ '\n')).length ≠ t.reverse.length := by
    intro hlength
    have hall := (List.takeWhile_prefix (· ≠ '\n')).eq_of_length hlength
    have hfeed := List.takeWhile_eq_self_iff.mp hall '\n' (List.mem_reverse.mpr h)
    simp at hfeed
  simp only [lastLine, List.rtakeWhile, List.reverse_append, List.takeWhile_append, if_neg hpart]

theorem lastLine_lineFeed (t : Text) : lastLine ('\n' :: t) = lastLine t := by
  by_cases h : '\n' ∈ t
  · exact lastLine_append_of_mem h ['\n']
  · rw [lastLine_of_not_mem h]
    exact lastLine_append_of_not_mem h ['\n']

/-- Nothing stands behind the last of whole lines. -/
theorem lastLine_ofLines : ∀ lines : List Text, lastLine (ofLines lines) = []
  | [] => rfl
  | line :: rest => by
      rw [ofLines_cons, lastLine_append_of_mem List.mem_cons_self, lastLine_lineFeed,
        lastLine_ofLines rest]

end Text

/-! ## 2. The position of an offset -/

/-- The order of positions: by line, and on a line by column. -/
def Position.Before (p q : Position) : Prop :=
  p.line < q.line ∨ p.line = q.line ∧ p.column < q.column

namespace Position

variable {content : Text} {p q : Position} {a b : Nat}

/-- The column of a place is its distance from the last line feed before it. -/
theorem At.column_eq (h : At (splitLines content) p a) :
    p.column = (Text.lastLine (content.take a)).length := by
  obtain ⟨before, part, -, hpart, htake, rfl⟩ := h.take_eq
  rw [htake, Text.lastLine_append_of_not_mem hpart, Text.lastLine_ofLines, List.nil_append]

/-- A later place has a later position. -/
theorem At.before (hp : At (splitLines content) p a) (hq : At (splitLines content) q b)
    (hab : a < b) (hb : b ≤ content.length) : p.Before q := by
  obtain ⟨between, hbetween⟩ := List.take_prefix_take_left (l := content) (Nat.le_of_lt hab)
  have hcount := hq.count_lineFeed
  have hcolumn := hq.column_eq
  rw [← hbetween] at hcount hcolumn
  rw [List.count_append] at hcount
  by_cases hfeed : '\n' ∈ between
  · left
    have hpos : 0 < between.count '\n' := List.count_pos_iff.mpr hfeed
    have := hp.count_lineFeed
    omega
  · right
    rw [List.count_eq_zero.mpr hfeed] at hcount
    rw [Text.lastLine_append_of_not_mem hfeed, List.length_append] at hcolumn
    have hlength := congrArg List.length hbetween
    rw [List.length_append, List.length_take, List.length_take] at hlength
    have := hp.count_lineFeed
    have := hp.column_eq
    omega

/-- A search for more characters than the lines take up finds none of them. -/
theorem find?_eq_none : ∀ {lines : List Text} {offset : Int}, spanOf lines ≤ offset →
    find? offset lines = none
  | [], _, _ => rfl
  | line :: rest, offset, h => by
      rw [spanOf_cons] at h
      rw [find?, if_neg (by omega), find?_eq_none (by omega), Option.map_none]

theorem ofOffset_of_length_lt {offset : Int} (h : content.length < offset) :
    ofOffset content offset = .ok ⟨(splitLines content).length, 0⟩ := by
  have hspan : (spanOf (splitLines content) : Int) ≤ offset := by
    rw [spanOf_splitLines]
    omega
  have hlines : (1 : Int) ≤ (splitLines content).length := by
    have := List.length_pos_iff.mpr (splitLines_ne_nil content)
    omega
  rw [ofOffset, if_neg (by omega), inLines, find?_eq_none hspan, Option.getD_none,
    Int.max_eq_left hlines]

/-- A column of a line, up to its end, is a place, and its offset lies in the text. -/
theorem exists_at_of_column_le {index column : Nat} {line : Text}
    (hline : (splitLines content)[index]? = some line) (hcolumn : column ≤ line.length) :
    ∃ offset ≤ content.length, At (splitLines content) ⟨index + 1, column⟩ offset := by
  obtain ⟨hindex, rfl⟩ := List.getElem?_eq_some_iff.mp hline
  have hsplit : splitLines content = (splitLines content).take index
      ++ (splitLines content)[index] :: (splitLines content).drop (index + 1) := by
    rw [← List.drop_eq_getElem_cons hindex, List.take_append_drop]
  have hspan := congrArg spanOf hsplit
  rw [spanOf_splitLines, spanOf_append, spanOf_cons] at hspan
  refine ⟨spanOf ((splitLines content).take index) + column, by omega,
    _, _, _, column, hsplit, hcolumn, ?_, rfl⟩
  rw [List.length_take, Nat.min_eq_left (Nat.le_of_lt hindex)]

/-- **Offsets and positions are one for one, and in the same order.** Up to the end of a text, the
line of an offset is one more than the number of line feeds before it, its column the distance from
the last of them, and the position leads back to the offset. Every column of every line, the place
of the line feed included, has an offset, which leads back to it. Of two offsets the later one has
the later position. All offsets behind the end are taken for the start of the last line. -/
theorem ofOffset_bijective (content : Text) :
    (∀ offset : Nat, offset ≤ content.length → ∃ p, ofOffset content offset = .ok p ∧
      p.line = 1 + (content.take offset).count '\n' ∧
      p.column = (Text.lastLine (content.take offset)).length ∧
      offsetOf content p.line p.column = .ok (offset : Int)) ∧
    (∀ (index column : Nat) (line : Text), (splitLines content)[index]? = some line →
      column ≤ line.length → ∃ offset : Nat, offset ≤ content.length ∧
        offsetOf content (index + 1) column = .ok (offset : Int) ∧
        ofOffset content offset = .ok ⟨index + 1, column⟩) ∧
    (∀ (a b : Nat) (p q : Position), a < b → b ≤ content.length →
      ofOffset content a = .ok p → ofOffset content b = .ok q → p.Before q) ∧
    (∀ offset : Int, content.length < offset →
      ofOffset content offset = .ok ⟨(splitLines content).length, 0⟩) := by
  refine ⟨fun offset h => ?_, fun index column line hline hcolumn => ?_,
    fun a b p q hab hb hp hq => ?_, fun offset h => ofOffset_of_length_lt h⟩
  · obtain ⟨p, hat⟩ := exists_at_of_le_length h
    have hcount := hat.count_lineFeed
    exact ⟨p, hat.ofOffset_eq, by omega, hat.column_eq, hat.offsetOf_eq⟩
  · obtain ⟨offset, hoffset, hat⟩ := exists_at_of_column_le hline hcolumn
    exact ⟨offset, hoffset, hat.offsetOf_eq, hat.ofOffset_eq⟩
  · obtain ⟨p', hat⟩ := exists_at_of_le_length (Nat.le_of_lt (Nat.lt_of_lt_of_le hab hb))
    obtain ⟨q', hat'⟩ := exists_at_of_le_length hb
    obtain rfl := Except.ok.inj (hat.ofOffset_eq.symm.trans hp)
    obtain rfl := Except.ok.inj (hat'.ofOffset_eq.symm.trans hq)
    exact hat.before hat' hab hb

/-- The last line of a text that ends in a line feed is empty, and has a place all the same. -/
example : (ofOffset "ab\n\n".toList 3, ofOffset "ab\n\n".toList 4, ofOffset "ab\n\n".toList 5)
    = (.ok ⟨2, 0⟩, .ok ⟨3, 0⟩, .ok ⟨3, 0⟩) := by
  decide +kernel

end Position

end Marginalia
