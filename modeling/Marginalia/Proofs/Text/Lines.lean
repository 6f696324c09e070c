/-
Marginalia.Proofs.Text.Lines — an offset and a position are two names of one
place.

The lines of a text, each ended by a line feed, are the text with one more
line feed (`ofLines_splitLines`). So `spanOf` counts characters of the text,
and cutting the lines anywhere cuts the text at the same place.

* `Position.At` says which offset a position stands for, without searching:
  so many lines come before, and so many characters of the line. A position
  may stand behind the last character of its line, where the line feed is.
* The search of `Position.find?` and the sum of `offsetOf` both agree with it
  (`At.inLines_eq`, `At.offsetOf_eq`), and every offset up to the end of the
  text has a position (`exists_at_of_le_length`).
-/
import Marginalia.Text.Lines

namespace Marginalia

/-! ## 1. Lines, put together again -/

/-- Lines as a text, each ended by a line feed. -/
def Text.ofLines (lines : List Text) : Text := lines.flatMap (· ++ ['\n'])

@[simp] theorem splitLines_lineFeed (rest : Text) :
    splitLines ('\n' :: rest) = [] :: splitLines rest := by
  simp [splitLines, List.splitOn_cons_eq_if_modifyHead]

theorem splitLines_cons {c : Char} (h : c ≠ '\n') (rest : Text) :
    splitLines (c :: rest) = (splitLines rest).modifyHead (c :: ·) := by
  simp [splitLines, List.splitOn_cons_eq_if_modifyHead, h]

/-- Nothing is lost by cutting a text into lines; the last line gets a line feed of its own. -/
theorem ofLines_splitLines (content : Text) :
    Text.ofLines (splitLines content) = content ++ ['\n'] := by
  induction content with
  | nil => rfl
  | cons c rest ih =>
    by_cases hc : c = '\n'
    · subst hc
      rw [splitLines_lineFeed]
      simpa [Text.ofLines] using ih
    · rw [splitLines_cons hc]
      obtain ⟨line, lines, hs⟩ := List.exists_cons_of_ne_nil (splitLines_ne_nil rest)
      rw [hs] at ih ⊢
      simpa [Text.ofLines] using ih

@[simp] theorem ofLines_append (before after : List Text) :
    Text.ofLines (before ++ after) = Text.ofLines before ++ Text.ofLines after := by
  simp [Text.ofLines]

@[simp] theorem ofLines_cons (line : Text) (rest : List Text) :
    Text.ofLines (line :: rest) = line ++ '\n' :: Text.ofLines rest := by
  simp [Text.ofLines]

theorem length_ofLines (lines : List Text) : (Text.ofLines lines).length = spanOf lines := by
  induction lines with
  | nil => rfl
  | cons line rest ih =>
    simp only [ofLines_cons, List.length_append, List.length_cons, spanOf_cons, ih]
    omega

@[simp] theorem spanOf_append (before after : List Text) :
    spanOf (before ++ after) = spanOf before + spanOf after := by
  rw [← length_ofLines, ← length_ofLines, ← length_ofLines, ofLines_append, List.length_append]

theorem spanOf_splitLines (content : Text) : spanOf (splitLines content) = content.length + 1 := by
  rw [← length_ofLines, ofLines_splitLines, List.length_append, List.length_singleton]

/-- No line holds a line feed. -/
theorem lineFeed_not_mem_of_mem_splitLines {content line : Text} (h : line ∈ splitLines content) :
    '\n' ∉ line := by
  induction content generalizing line with
  | nil =>
    obtain rfl := List.mem_singleton.mp h
    exact List.not_mem_nil
  | cons c rest ih =>
    by_cases hc : c = '\n'
    · subst hc
      rw [splitLines_lineFeed] at h
      rcases List.mem_cons.mp h with rfl | h
      · exact List.not_mem_nil
      · exact ih h
    · obtain ⟨first, lines, hs⟩ := List.exists_cons_of_ne_nil (splitLines_ne_nil rest)
      rw [hs] at ih
      rw [splitLines_cons hc, hs, List.modifyHead_cons] at h
      rcases List.mem_cons.mp h with rfl | h
      · exact List.not_mem_cons_of_ne_of_not_mem (Ne.symm hc) (ih List.mem_cons_self)
      · exact ih (List.mem_cons_of_mem _ h)

/-- What stands on a line stands in the text. -/
theorem mem_of_mem_splitLines {content line : Text} {c : Char} (h : line ∈ splitLines content)
    (hc : c ∈ line) : c ∈ content := by
  have hall : c ∈ Text.ofLines (splitLines content) :=
    List.mem_flatMap.mpr ⟨line, h, List.mem_append_left _ hc⟩
  rw [ofLines_splitLines, List.mem_append, List.mem_singleton] at hall
  exact hall.resolve_right fun heq => lineFeed_not_mem_of_mem_splitLines h (heq ▸ hc)

/-- Each line counts for one line feed. -/
theorem count_lineFeed_ofLines {lines : List Text} (h : ∀ line ∈ lines, '\n' ∉ line) :
    (Text.ofLines lines).count '\n' = lines.length := by
  induction lines with
  | nil => rfl
  | cons line rest ih =>
    have hline : line.count '\n' = 0 := List.count_eq_zero.mpr (h line List.mem_cons_self)
    rw [ofLines_cons, List.count_append, hline, List.count_cons_self,
      ih fun l hl => h l (List.mem_cons_of_mem _ hl), List.length_cons, Nat.zero_add]

/-- A text begins with any of its lines behind the lines before it. -/
theorem isPrefix_of_splitLines {content line : Text} {before after : List Text}
    (h : splitLines content = before ++ line :: after) :
    Text.ofLines before ++ line <+: content := by
  have hall : content ++ ['\n'] = Text.ofLines before ++ (line ++ '\n' :: Text.ofLines after) := by
    rw [← ofLines_splitLines, h, ofLines_append, ofLines_cons]
  have hlen : (Text.ofLines before ++ line).length ≤ content.length := by
    have hsum := congrArg List.length hall
    simp only [List.length_append, List.length_cons, List.length_nil] at hsum ⊢
    omega
  exact List.prefix_of_prefix_length_le ⟨'\n' :: Text.ofLines after, by rw [hall]; simp⟩
    (List.prefix_append content ['\n']) hlen

/-- A line stands in its text behind the lines before it. -/
theorem isPrefix_drop_spanOf {content line : Text} {before after : List Text}
    (h : splitLines content = before ++ line :: after) :
    line <+: content.drop (spanOf before) := by
  obtain ⟨tail, rfl⟩ := isPrefix_of_splitLines h
  rw [← length_ofLines, List.append_assoc, List.drop_left]
  exact List.prefix_append line tail

/-! ## 2. Places -/

namespace Position

/-- A position on the lines and the offset it stands for. -/
def At (lines : List Text) (p : Position) (offset : Nat) : Prop :=
  ∃ (before : List Text) (line : Text) (after : List Text) (column : Nat),
    lines = before ++ line :: after ∧ column ≤ line.length ∧
      p = ⟨before.length + 1, column⟩ ∧ offset = spanOf before + column

/-- The search passes the lines before and stops on the line. -/
theorem find?_append {line : Text} {column : Nat} (hc : column ≤ line.length) (after : List Text) :
    ∀ before : List Text, find? (spanOf before + column : Nat) (before ++ line :: after)
      = some ⟨before.length + 1, column⟩
  | [] => by
      rw [List.nil_append, find?, if_pos]
      · simp
      · simp only [spanOf_nil]; omega
  | first :: before => by
      have hoff : ((spanOf (first :: before) + column : Nat) : Int) - (first.length + 1)
          = (spanOf before + column : Nat) := by
        simp only [spanOf_cons]; omega
      rw [List.cons_append, find?, if_neg, hoff, find?_append hc after before]
      · simp [nextLine]
      · simp only [spanOf_cons]; omega

variable {lines : List Text} {p : Position} {offset : Nat}

theorem At.find?_eq (h : At lines p offset) : find? offset lines = some p := by
  obtain ⟨before, line, after, column, rfl, hc, rfl, rfl⟩ := h
  exact find?_append hc after before

/-- Searching for the offset of a position gives the position back. -/
theorem At.inLines_eq (h : At lines p offset) : inLines lines offset = p := by
  rw [inLines, h.find?_eq, Option.getD_some]

theorem At.one_le_line (h : At lines p offset) : 1 ≤ p.line := by
  obtain ⟨before, line, after, column, -, -, rfl, -⟩ := h
  show (1 : Int) ≤ before.length + 1
  omega

theorem At.line_le (h : At lines p offset) : p.line ≤ lines.length := by
  obtain ⟨before, line, after, column, rfl, -, rfl, -⟩ := h
  simp only [List.length_append, List.length_cons]
  omega

/-- What comes before a place: whole lines, and a part of one more. -/
theorem At.take_eq {content : Text} (h : At (splitLines content) p offset) :
    ∃ (before : List Text) (part : Text), (∀ line ∈ before, '\n' ∉ line) ∧ '\n' ∉ part ∧
      content.take offset = Text.ofLines before ++ part ∧
      p = ⟨before.length + 1, part.length⟩ := by
  obtain ⟨before, line, after, column, hsplit, hcolumn, rfl, rfl⟩ := h
  have hfree : ∀ l ∈ before ++ line :: after, '\n' ∉ l :=
    hsplit ▸ fun l hl => lineFeed_not_mem_of_mem_splitLines hl
  refine ⟨before, line.take column, fun l hl => hfree l (List.mem_append_left _ hl), ?_, ?_, ?_⟩
  · exact fun hmem => hfree line (by simp) (List.mem_of_mem_take hmem)
  · obtain ⟨tail, rfl⟩ := isPrefix_of_splitLines hsplit
    rw [← length_ofLines, List.append_assoc, List.take_length_add_append,
      List.take_append_of_le_length hcolumn]
  · rw [List.length_take, Nat.min_eq_left hcolumn]

/-- There are as many line feeds before a place as there are lines above it. -/
theorem At.count_lineFeed {content : Text} (h : At (splitLines content) p offset) :
    ((content.take offset).count '\n' + 1 : Int) = p.line := by
  obtain ⟨before, part, hbefore, hpart, htake, rfl⟩ := h.take_eq
  rw [htake, List.count_append, count_lineFeed_ofLines hbefore, List.count_eq_zero.mpr hpart]
  rfl

/-- Every offset that the lines take up has a position. -/
theorem exists_at : ∀ (lines : List Text) (offset : Nat), offset < spanOf lines →
    ∃ p, At lines p offset
  | [], _, h => absurd h (Nat.not_lt_zero _)
  | line :: rest, offset, h => by
      by_cases hline : offset ≤ line.length
      · exact ⟨_, [], line, rest, offset, rfl, hline, rfl, by simp⟩
      · rw [spanOf_cons] at h
        obtain ⟨_, before, next, after, column, rfl, hc, rfl, hoff⟩ :=
          exists_at rest (offset - (line.length + 1)) (by omega)
        refine ⟨_, line :: before, next, after, column, rfl, hc, rfl, ?_⟩
        rw [spanOf_cons]
        omega

theorem exists_at_of_le_length {content : Text} (h : offset ≤ content.length) :
    ∃ p, At (splitLines content) p offset :=
  exists_at _ _ (by rw [spanOf_splitLines]; omega)

/-- The position of an offset into a text is where the lines have it. -/
theorem At.ofOffset_eq {content : Text} (h : At (splitLines content) p offset) :
    ofOffset content offset = .ok p := by
  rw [ofOffset, if_neg (by omega), h.inLines_eq]

/-- The offset of a position is the offset it stands for. -/
theorem At.offsetOf_eq {content : Text} (h : At (splitLines content) p offset) :
    offsetOf content p.line p.column = .ok (offset : Int) := by
  have hlow := h.one_le_line
  have hhigh := h.line_le
  obtain ⟨before, line, after, column, hsplit, -, rfl, rfl⟩ := h
  have htake : (splitLines content).take ((before.length + 1 : Int).toNat - 1) = before := by
    rw [hsplit]
    simp
  rw [offsetOf, if_neg (by omega), htake]
  simp

end Position

end Marginalia
