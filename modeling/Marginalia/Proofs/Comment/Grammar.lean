/-
Marginalia.Proofs.Comment.Grammar — what the line pass accepts.

A line holds a line comment if it reads: indent, marker, rest. `LineReads` says
so, without looking for anything. A line reads so in one way only, as no marker
begins with a character that may be indent (`LineReads.unique`); so there is at
most one comment on a line, and of which style it is does not depend on what is
tried first.

* `lineMatch?_eq_some_iff` — the match of a line is that reading.
* `mem_lineMatches_iff` and `pairwise_lineMatches` — the pass yields the matches
  of the lines, in their order.
* `Capture.find?_of_lineReads` and `Capture.lineReads_of_find?` — what the
  pattern of a style takes is that reading too. Nothing is gained by giving
  indent back.
-/
import Mathlib.Data.List.TakeWhile
import Marginalia.Comment.Pattern
import Marginalia.Proofs.Comment.Place

namespace Marginalia

/-! ## 1. Readings of a line -/

/-- Whether a line reads: indent, the marker of a line comment, rest. -/
structure LineReads (line : Text) (kind : Kind) (indent rest : Text) : Prop where
  kind_eq : kind = .line ∨ kind = .hash
  line_eq : line = indent ++ (kind.marker ++ rest)
  isIndent_of_mem : ∀ c ∈ indent, isIndent c = true

/-- The marker of a line comment does not begin with indent. -/
theorem head?_marker {kind : Kind} (h : kind = .line ∨ kind = .hash) :
    ∃ c rest, kind.marker = c :: rest ∧ isIndent c = false := by
  rcases h with rfl | rfl
  · exact ⟨'/', ['/'], rfl, by decide⟩
  · exact ⟨'#', [], rfl, by decide⟩

/-- A body is a line comment of the style whose marker it begins with. -/
theorem lineKind?_eq_some_iff {body : Text} {kind : Kind} :
    lineKind? body = some kind ↔ (kind = .line ∨ kind = .hash) ∧ kind.marker <+: body := by
  constructor
  · intro h
    refine ⟨?_, isPrefix_marker h⟩
    unfold lineKind? at h
    split at h
    · exact .inl (Option.some.inj h).symm
    · exact .inr (Option.some.inj h).symm
    · cases h
  · rintro ⟨rfl | rfl, rest, rfl⟩
    · rfl
    · rfl

namespace LineReads

variable {line : Text} {kind : Kind} {indent rest : Text}

theorem takeWhile_eq (h : LineReads line kind indent rest) :
    line.takeWhile isIndent = indent := by
  obtain ⟨c, tail, hmarker, hc⟩ := head?_marker h.kind_eq
  rw [h.line_eq, List.takeWhile_append_of_pos h.isIndent_of_mem, hmarker, List.cons_append,
    List.takeWhile_cons_of_neg (by simp [hc]), List.append_nil]

theorem dropWhile_eq (h : LineReads line kind indent rest) :
    line.dropWhile isIndent = kind.marker ++ rest := by
  obtain ⟨c, tail, hmarker, hc⟩ := head?_marker h.kind_eq
  rw [h.line_eq, List.dropWhile_append_of_pos h.isIndent_of_mem, hmarker, List.cons_append,
    List.dropWhile_cons_of_neg (by simp [hc])]

theorem lineKind?_eq (h : LineReads line kind indent rest) :
    lineKind? (line.dropWhile isIndent) = some kind :=
  lineKind?_eq_some_iff.mpr ⟨h.kind_eq, rest, h.dropWhile_eq.symm⟩

/-- A line reads as a line comment in one way. -/
theorem unique {kind' : Kind} {indent' rest' : Text} (h : LineReads line kind indent rest)
    (h' : LineReads line kind' indent' rest') : kind = kind' ∧ indent = indent' ∧ rest = rest' := by
  obtain rfl : kind = kind' := Option.some.inj (h.lineKind?_eq.symm.trans h'.lineKind?_eq)
  refine ⟨rfl, h.takeWhile_eq.symm.trans h'.takeWhile_eq, ?_⟩
  exact List.append_cancel_left (h.dropWhile_eq.symm.trans h'.dropWhile_eq)

end LineReads

/-- A line reads as a line comment if its first character that is no indent begins a marker. -/
theorem lineReads_of_lineKind? {line : Text} {kind : Kind}
    (h : lineKind? (line.dropWhile isIndent) = some kind) :
    LineReads line kind (line.takeWhile isIndent)
      ((line.dropWhile isIndent).drop kind.marker.length) := by
  obtain ⟨hkind, rest, hrest⟩ := lineKind?_eq_some_iff.mp h
  refine ⟨hkind, ?_, fun c hc => List.mem_takeWhile_imp hc⟩
  rw [← hrest, List.drop_left, hrest, List.takeWhile_append_dropWhile]

/-! ## 2. The match of a line -/

section

variable {start number : Nat} {line : Text} {m : Match}

/-- The match of a line is its reading, without one return at its end. -/
theorem lineMatch?_eq_some_iff : lineMatch? start number line = some m ↔
    ∃ kind indent rest, LineReads line kind indent rest ∧
      m = Capture.toMatch start number kind ⟨indent, rest⟩ := by
  constructor
  · intro h
    obtain ⟨kind, hkind, rfl⟩ := Option.map_eq_some_iff.mp h
    exact ⟨kind, _, _, lineReads_of_lineKind? hkind, rfl⟩
  · rintro ⟨kind, indent, rest, h, rfl⟩
    rw [lineMatch?, h.lineKind?_eq, h.dropWhile_eq, h.takeWhile_eq, Option.map_some, List.drop_left]
    rfl

theorem lineMatch?_eq_none_iff : lineMatch? start number line = none ↔
    ¬∃ kind indent rest, LineReads line kind indent rest := by
  rw [Option.eq_none_iff_forall_ne_some]
  constructor
  · rintro h ⟨kind, indent, rest, hreads⟩
    exact h _ (lineMatch?_eq_some_iff.mpr ⟨kind, indent, rest, hreads, rfl⟩)
  · intro h m hm
    obtain ⟨kind, indent, rest, hreads, -⟩ := lineMatch?_eq_some_iff.mp hm
    exact h ⟨kind, indent, rest, hreads⟩

/-- What is left of a text without one return at its end. -/
theorem dropReturn_eq_iff {t body : Text} :
    dropReturn t = body ↔ t = body ++ ['\r'] ∨ t = body ∧ body.getLast? ≠ some '\r' := by
  unfold dropReturn
  split
  next h =>
    obtain ⟨body', rfl⟩ := List.getLast?_eq_some_iff.mp h
    rw [List.dropLast_concat]
    constructor
    · rintro rfl
      exact .inl rfl
    · rintro (h' | ⟨rfl, h'⟩)
      · exact List.append_cancel_right h'
      · exact absurd h h'
  next h =>
    constructor
    · rintro rfl
      exact .inr ⟨rfl, h⟩
    · rintro (rfl | ⟨rfl, -⟩)
      · exact absurd List.getLast?_concat h
      · rfl

end

/-! ## 3. The pass -/

theorem mem_lineMatches_append {m : Match} (line : Text) (after : List Text) :
    ∀ (before : List Text) (start number : Nat),
    lineMatch? (start + spanOf before) (number + before.length) line = some m →
    m ∈ lineMatches start number (before ++ line :: after)
  | [], start, number, h => by
      have h : lineMatch? start number line = some m := h
      exact List.mem_append_left _ (by simp [h])
  | first :: before, start, number, h => by
      refine List.mem_append_right _ (mem_lineMatches_append line after before _ _ ?_)
      rw [← h, spanOf_cons, List.length_cons]
      congr 1 <;> omega

/-- The matches of a pass are those of its lines. -/
theorem mem_lineMatches_iff {m : Match} {lines : List Text} {start number : Nat} :
    m ∈ lineMatches start number lines ↔ ∃ before line after, lines = before ++ line :: after ∧
      lineMatch? (start + spanOf before) (number + before.length) line = some m := by
  refine ⟨mem_lineMatches, ?_⟩
  rintro ⟨before, line, after, rfl, h⟩
  exact mem_lineMatches_append line after before start number h

/-- Whether one match stands on an earlier line than another. -/
def Match.Above (a b : Match) : Prop :=
  ∃ p q, a.position = some p ∧ b.position = some q ∧ p.line < q.line

/-- The matches of a pass come line by line, at most one for each. -/
theorem pairwise_lineMatches : ∀ (lines : List Text) (start number : Nat),
    (lineMatches start number lines).Pairwise Match.Above
  | [], _, _ => List.Pairwise.nil
  | line :: rest, start, number => by
      rw [lineMatches]
      refine List.pairwise_append.mpr ⟨?_, pairwise_lineMatches rest _ _, ?_⟩
      · cases lineMatch? start number line with
        | none => exact List.Pairwise.nil
        | some m => exact List.pairwise_singleton _ m
      · intro a ha b hb
        obtain ⟨kind, indent, tail, -, rfl⟩ := lineMatch?_eq_some_iff.mp (Option.mem_toList.mp ha)
        obtain ⟨before, next, after, -, hb⟩ := mem_lineMatches hb
        obtain ⟨kind', indent', tail', -, rfl⟩ := lineMatch?_eq_some_iff.mp hb
        refine ⟨_, _, rfl, rfl, ?_⟩
        show (number : Int) < (number + 1 + before.length : Nat)
        omega

/-! ## 4. Patterns -/

namespace Capture

variable {line indent rest : Text} {kind : Kind}

theorem takeWhile_ne_lineFeed {t : Text} (h : '\n' ∉ t) : t.takeWhile (· ≠ '\n') = t := by
  refine List.takeWhile_eq_self_iff.mpr fun c hc => ?_
  have hne : c ≠ '\n' := fun heq => h (heq ▸ hc)
  simpa using hne

theorem flush?_append (h : '\n' ∉ rest) :
    flush? kind.marker (kind.marker ++ rest) = some ⟨[], rest⟩ := by
  rw [flush?, if_pos (List.isPrefixOf_iff_prefix.mpr (List.prefix_append _ _)), List.drop_left,
    takeWhile_ne_lineFeed h]

theorem eq_append_of_flush? {m : Capture} (hline : '\n' ∉ line)
    (h : flush? kind.marker line = some m) : m.indent = [] ∧ line = kind.marker ++ m.rest := by
  unfold flush? at h
  split at h
  next hprefix =>
    obtain ⟨rest, rfl⟩ := List.isPrefixOf_iff_prefix.mp hprefix
    obtain rfl := Option.some.inj h
    rw [List.drop_left, takeWhile_ne_lineFeed fun hrest => hline (List.mem_append_right _ hrest)]
    exact ⟨rfl, rfl⟩
  next => cases h

/-- The pattern of a style takes a reading as it is: the whole indent, and nothing of it is given
back. -/
theorem find?_of_lineReads (h : LineReads line kind indent rest) (hrest : '\n' ∉ rest) :
    find? kind.marker line = some ⟨indent, rest⟩ := by
  obtain ⟨hkind, rfl, hindent⟩ := h
  induction indent with
  | nil =>
    obtain ⟨c, tail, hmarker, hc⟩ := head?_marker hkind
    have hflush : flush? kind.marker (kind.marker ++ rest) = some ⟨[], rest⟩ := flush?_append hrest
    rw [hmarker, List.cons_append] at hflush
    rw [List.nil_append, hmarker, List.cons_append, find?, hc, hflush]
    rfl
  | cons c indent ih =>
    have hfound := ih fun c' hc' => hindent c' (List.mem_cons_of_mem _ hc')
    rw [List.cons_append, find?, hindent c List.mem_cons_self, if_pos rfl, hfound]
    rfl

/-- What the pattern of a style takes is a reading of the line. -/
theorem lineReads_of_find? (hkind : kind = .line ∨ kind = .hash) : ∀ {line : Text} {m : Capture},
    '\n' ∉ line → find? kind.marker line = some m → LineReads line kind m.indent m.rest
  | [], m, hline, h => by
      obtain ⟨hindent, hrest⟩ := eq_append_of_flush? hline h
      exact ⟨hkind, by rw [hindent]; exact hrest, by simp [hindent]⟩
  | c :: t, m, hline, h => by
      rw [find?, Option.or_eq_some_iff] at h
      rcases h with h | ⟨-, h⟩
      · split at h
        next hc =>
          obtain ⟨m', hm', rfl⟩ := Option.map_eq_some_iff.mp h
          obtain ⟨-, ht, hindent⟩ :=
            lineReads_of_find? hkind (fun hmem => hline (List.mem_cons_of_mem _ hmem)) hm'
          refine ⟨hkind, congrArg (c :: ·) ht, fun c' hc' => ?_⟩
          rcases List.mem_cons.mp hc' with rfl | hc'
          · exact hc
          · exact hindent c' hc'
        next => cases h
      · obtain ⟨hindent, hrest⟩ := eq_append_of_flush? hline h
        exact ⟨hkind, by rw [hindent]; exact hrest, by simp [hindent]⟩

end Capture

section

variable {start number : Nat} {line : Text}

/-- The pattern of a style finds the match of a line if it is of that style. -/
theorem patternMatch?_eq_some_iff {kind : Kind} {m : Match} (hkind : kind = .line ∨ kind = .hash)
    (hline : '\n' ∉ line) : patternMatch? start number line kind = some m ↔
      lineMatch? start number line = some m ∧ m.kind = kind := by
  rw [lineMatch?_eq_some_iff]
  constructor
  · intro h
    obtain ⟨capture, hcapture, rfl⟩ := Option.map_eq_some_iff.mp h
    exact ⟨⟨kind, _, _, Capture.lineReads_of_find? hkind hline hcapture, rfl⟩, rfl⟩
  · rintro ⟨⟨kind', indent, rest, hreads, rfl⟩, rfl⟩
    have hrest : '\n' ∉ rest := fun hmem => hline (by simp [hreads.line_eq, hmem])
    exact Option.map_eq_some_iff.mpr ⟨_, Capture.find?_of_lineReads hreads hrest, rfl⟩

/-- The two patterns exclude each other, and one of them finds the match of a line if there is
one. -/
theorem filterMap_patternMatch? (hline : '\n' ∉ line) :
    [Kind.line, Kind.hash].filterMap (patternMatch? start number line)
      = (lineMatch? start number line).toList := by
  have hfound : ∀ kind, kind = .line ∨ kind = .hash → patternMatch? start number line kind
      = (lineMatch? start number line).filter (·.kind = kind) := by
    intro kind hkind
    ext m
    rw [patternMatch?_eq_some_iff hkind hline, Option.filter_eq_some_iff, decide_eq_true_iff]
  simp only [List.filterMap_cons, List.filterMap_nil, hfound .line (.inl rfl),
    hfound .hash (.inr rfl)]
  cases hm : lineMatch? start number line with
  | none => rfl
  | some m =>
    obtain ⟨kind, indent, rest, hreads, rfl⟩ := lineMatch?_eq_some_iff.mp hm
    rcases hreads.kind_eq with rfl | rfl
    · rfl
    · rfl

end

/-- A line tried with one pattern after the other gives what the pass finds on it. -/
theorem patternMatches_eq : ∀ (lines : List Text) (start number : Nat),
    (∀ line ∈ lines, '\n' ∉ line) → patternMatches start number lines = lineMatches start number lines
  | [], _, _, _ => rfl
  | line :: rest, start, number, h => by
      rw [patternMatches, lineMatches, filterMap_patternMatch? (h line List.mem_cons_self),
        patternMatches_eq rest _ _ fun l hl => h l (List.mem_cons_of_mem _ hl)]

/-! ## 5. The lines of a text -/

/-- **The line pass accepts its grammar and nothing else.** The matches are those of the lines that
read: indent, marker, rest; each line reads so in one way, its match has the width of the indent as
column, and its text is the marker with the rest, of which one return at the end is left out. They
come line by line, at most one for each. The two patterns, tried on each line one after the other,
give the same matches. -/
theorem lineMatches_grammar (content : Text) :
    (∀ m, m ∈ lineMatches 0 1 (splitLines content) ↔
      ∃ before line after kind indent rest body,
        splitLines content = before ++ line :: after ∧ LineReads line kind indent rest ∧
        (rest = body ++ ['\r'] ∨ rest = body ∧ body.getLast? ≠ some '\r') ∧
        m = ⟨kind, kind.marker ++ body, spanOf before + indent.length,
          some ⟨before.length + 1, indent.length⟩⟩) ∧
    (lineMatches 0 1 (splitLines content)).Pairwise Match.Above ∧
    (∀ line kind kind' indent indent' rest rest', LineReads line kind indent rest →
      LineReads line kind' indent' rest' → kind = kind' ∧ indent = indent' ∧ rest = rest') ∧
    patternMatches 0 1 (splitLines content) = lineMatches 0 1 (splitLines content) := by
  refine ⟨fun m => ?_, pairwise_lineMatches _ 0 1, fun _ _ _ _ _ _ _ => LineReads.unique,
    patternMatches_eq _ 0 1 fun _ => lineFeed_not_mem_of_mem_splitLines⟩
  rw [mem_lineMatches_iff]
  constructor
  · rintro ⟨before, line, after, hsplit, hm⟩
    obtain ⟨kind, indent, rest, hreads, rfl⟩ := lineMatch?_eq_some_iff.mp hm
    refine ⟨before, line, after, kind, indent, rest, dropReturn rest, hsplit, hreads,
      dropReturn_eq_iff.mp rfl, ?_⟩
    simp [Capture.toMatch, Nat.add_comm 1]
  · rintro ⟨before, line, after, kind, indent, rest, body, hsplit, hreads, hbody, rfl⟩
    refine ⟨before, line, after, hsplit, ?_⟩
    refine lineMatch?_eq_some_iff.mpr ⟨kind, indent, rest, hreads, ?_⟩
    simp [Capture.toMatch, Nat.add_comm 1, dropReturn_eq_iff.mpr hbody]

/-- A line of nothing but indent, a marker behind a byte order mark with a return at the end, and a
return inside a line. -/
example : lineMatches 0 1 (splitLines " \r\n\uFEFF//\r\n#a\rb\r\r".toList)
    = [⟨.line, "//".toList, 4, some ⟨2, 1⟩⟩, ⟨.hash, "#a\rb\r".toList, 8, some ⟨3, 0⟩⟩] := by
  decide +kernel

end Marginalia
