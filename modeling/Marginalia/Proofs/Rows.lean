/-
Marginalia.Proofs.Rows — the rows of the text output.

The text output is a list of lines, each ended by a line feed, so its rows are
the rows of these lines (`Snapshot.splitLines_print`). The line of a comment has
as many rows as the label in it: positions are numbers, and what stands around
them is fixed.

So a comment takes one row if its label is a single line. That is so for every
comment that is found, except for an HTML comment that spans lines and does not
hold the delimiters of a block (`Label.StaysOnLine`).
-/
import Marginalia.Proofs.Comment.Label
import Marginalia.Results

namespace Marginalia

/-! ## 1. Rows of lines -/

theorem splitLines_of_not_mem {line : Text} (h : '\n' ∉ line) : splitLines line = [line] :=
  List.splitOn_eq_singleton h

/-- The rows of lines are those of each line, and an empty one behind the last line feed. -/
theorem splitLines_ofLines (lines : List Text) :
    splitLines (Text.ofLines lines) = lines.flatMap splitLines ++ [[]] := by
  induction lines with
  | nil => rfl
  | cons line rest ih =>
    have hcut : splitLines (line ++ '\n' :: Text.ofLines rest)
        = splitLines line ++ splitLines (Text.ofLines rest) :=
      List.splitOn_append_cons_self line (Text.ofLines rest)
    rw [ofLines_cons, hcut, ih, List.flatMap_cons, List.append_assoc]

theorem lineFeed_not_mem_ofInt (n : Int) : '\n' ∉ Text.ofInt n := by
  have hdigits : ∀ m : Nat, '\n' ∉ Text.ofNat m := by
    intro m hmem
    have hdigit : '\n'.isDigit = true := Nat.isDigit_of_mem_toDigits (by omega) (by omega) hmem
    revert hdigit
    decide
  unfold Text.ofInt
  split
  next => exact List.not_mem_cons_of_ne_of_not_mem (by decide) (hdigits _)
  next => exact hdigits _

/-! ## 2. The output -/

namespace Snapshot

variable {s : Snapshot}

/-- The line of a comment is a single row if its label is. -/
theorem splitLines_commentLine {c : Comment} (h : '\n' ∉ c.label) :
    splitLines (commentLine c) = [commentLine c] := by
  refine splitLines_of_not_mem ?_
  have hgap : '\n' ∉ "  ".toList := by decide
  have hcolon : '\n' ∉ ":".toList := by decide
  unfold commentLine
  simp only [List.mem_append, not_or]
  exact ⟨⟨⟨⟨⟨hgap, lineFeed_not_mem_ofInt _⟩, hcolon⟩, lineFeed_not_mem_ofInt _⟩, hgap⟩, h⟩

/-- The rows of the output are those of its lines. -/
theorem splitLines_print (s : Snapshot) (cwd : Text) (roots : List Text) :
    splitLines (s.print false cwd roots)
      = (s.entries.flatMap fun e => splitLines (fileLine cwd roots e)
          ++ (s.below (.file e)).flatMap fun c => splitLines (commentLine c))
        ++ splitLines (summary s.stats roots) ++ [[]] := by
  have hlines : splitLines (s.print false cwd roots)
      = (s.lines cwd roots).flatMap splitLines ++ [[]] := splitLines_ofLines _
  rw [hlines, lines, List.flatMap_append, List.flatMap_singleton, List.flatMap_assoc]
  simp only [List.flatMap_cons, List.flatMap_map]

/-- What stands below an entry is in a record. -/
theorem exists_record_of_mem_below {c : Comment} {e : FileEntry} (h : c ∈ s.below (.file e)) :
    ∃ r ∈ s.records, c ∈ r.comments := by
  simp only [below] at h
  cases hr : s.record? e.path with
  | none =>
    rw [hr] at h
    cases h
  | some r =>
    rw [hr] at h
    exact ⟨r, List.mem_of_find?_eq_some hr, h⟩

end Snapshot

/-! ## 3. Comments that take one row -/

/-- Whether a comment has a label of one line: an HTML comment has if it holds the delimiters of a
block, or if what is left of it without markers has no line feed, as far as it is shown; any other
comment has. -/
def Label.StaysOnLine (kind : Kind) (t : Text) : Prop :=
  kind = .html → hasBlock t = true ∨ '\n' ∉ shown defaultLimit (strip t)

instance (kind : Kind) (t : Text) : Decidable (Label.StaysOnLine kind t) :=
  inferInstanceAs (Decidable (kind = .html →
    Label.hasBlock t = true ∨ '\n' ∉ Label.shown Label.defaultLimit (Label.strip t)))

theorem Label.lineFeed_not_mem_ofText_iff {content : Text} {m : Match} (h : m ∈ matchesIn content) :
    '\n' ∉ ofText m.text ↔ StaysOnLine m.kind m.text := by
  rw [lineFeed_mem_ofText_iff h, StaysOnLine]
  simp only [not_and, ← Bool.not_eq_true]
  constructor
  · exact fun hnot hkind => or_iff_not_imp_left.mpr (hnot hkind)
  · exact fun hstays hkind => or_iff_not_imp_left.mp (hstays hkind)

/-- Whether the comments of an index are those of the contents of its files. -/
def Snapshot.Found (s : Snapshot) : Prop :=
  ∀ r ∈ s.records, ∃ content, r.comments = extractComments r.path content

/-- **Which comments take one row.** A comment that is found has a label of one line exactly if it
stays on a line. If all comments of an index do, the rows of the output are, for each file, those of
its own line and one for each of its comments, and behind all files the summary. -/
theorem print_rows_of_staysOnLine (content : Text) :
    (∀ m ∈ matchesIn content, '\n' ∉ Label.ofText m.text ↔ Label.StaysOnLine m.kind m.text) ∧
    ∀ (s : Snapshot) (cwd : Text) (roots : List Text), s.Found →
      (∀ r ∈ s.records, ∀ c ∈ r.comments, Label.StaysOnLine c.kind c.text) →
      splitLines (s.print false cwd roots)
        = (s.entries.flatMap fun e => splitLines (Snapshot.fileLine cwd roots e)
            ++ (s.below (.file e)).map Snapshot.commentLine)
          ++ splitLines (summary s.stats roots) ++ [[]] := by
  refine ⟨fun m hm => Label.lineFeed_not_mem_ofText_iff hm, ?_⟩
  intro s cwd roots hfound hstays
  rw [Snapshot.splitLines_print]
  congr 2
  refine List.flatMap_congr fun e _ => ?_
  congr 1
  rw [← List.flatMap_singleton' ((s.below (.file e)).map _), List.flatMap_map]
  refine List.flatMap_congr fun c hc => ?_
  obtain ⟨r, hr, hcomment⟩ := Snapshot.exists_record_of_mem_below hc
  obtain ⟨found, hcomments⟩ := hfound r hr
  have hstays := hstays r hr c hcomment
  rw [hcomments] at hcomment
  obtain ⟨m, hm, rfl⟩ := List.mem_map.mp hcomment
  exact Snapshot.splitLines_commentLine ((Label.lineFeed_not_mem_ofText_iff hm).mpr hstays)

/-- A block over two lines, and an HTML comment whose text is on a line of its own. -/
def spanning : Text := "/* a\n * b */ <!--\n c\n-->".toList

/-- An index of one file. -/
def indexOf (content : Text) : Snapshot :=
  ⟨[⟨"/w/a.html".toList, extractComments "/w/a.html".toList content⟩]⟩

theorem found_indexOf (content : Text) : (indexOf content).Found := by
  intro r hr
  obtain rfl := List.mem_singleton.mp hr
  exact ⟨content, rfl⟩

theorem print_rows_spanning :
    (indexOf spanning).Found ∧
      (∀ r ∈ (indexOf spanning).records, ∀ c ∈ r.comments, Label.StaysOnLine c.kind c.text) ∧
      (∀ m ∈ matchesIn spanning, '\n' ∈ m.text ∧ '\n' ∉ Label.ofText m.text) ∧
      splitLines ((indexOf spanning).print false "/w".toList ["/w".toList])
        = ["a.html (2 comments)".toList, "  1:0  a b".toList, "  2:8  c".toList,
          "Found 2 comments in 1 file".toList, []] := by
  have hfound := found_indexOf spanning
  have hstays : ∀ r ∈ (indexOf spanning).records, ∀ c ∈ r.comments,
      Label.StaysOnLine c.kind c.text := by
    decide +kernel
  have hspan : ∀ m ∈ matchesIn spanning, '\n' ∈ m.text ∧ Label.StaysOnLine m.kind m.text := by
    decide +kernel
  obtain ⟨hlabel, hrows⟩ := print_rows_of_staysOnLine spanning
  refine ⟨hfound, hstays, fun m hm => ?_, ?_⟩
  · obtain ⟨hmem, hstay⟩ := hspan m hm
    exact ⟨hmem, (hlabel m hm).mpr hstay⟩
  · rw [hrows (indexOf spanning) "/w".toList ["/w".toList] hfound hstays]
    decide +kernel

/-- An HTML comment with text on two lines. -/
def broken : Text := "<!-- a\nb -->".toList

/-- The label of this comment has two lines, and so the comment takes two rows. -/
theorem print_rows_broken :
    (∃ m ∈ matchesIn broken, '\n' ∈ Label.ofText m.text) ∧
      (indexOf broken).records.map (·.count) = [1] ∧
      splitLines ((indexOf broken).print false "/w".toList ["/w".toList])
        = ["a.html (1 comment)".toList, "  1:0  a".toList, "b".toList,
          "Found 1 comment in 1 file".toList, []] := by
  refine ⟨?_, ?_, ?_⟩ <;> decide +kernel

end Marginalia
